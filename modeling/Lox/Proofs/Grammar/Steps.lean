/-
How the readers of the grammar are made of steps.

Reading is a lawful monad, and each of the small steps either takes the next token or
leaves the cursor where it is.  What a step does is said twice here: forwards, for when
the next token is known, and backwards, for when the result is.

Some parts of a rule are optional and are read in the middle of a longer reader.  They
get names of their own, and the longer readers are shown to be made of them.
-/
import Lox.Grammar.Program

namespace Lox.Grammar

namespace Reader

variable {α β : Type}

instance : LawfulMonad Reader :=
  LawfulMonad.mk' Reader
    (fun p => by
      funext c
      show (match p c with | (some a, c') => (some a, c') | (none, c') => (none, c')) = p c
      rcases p c with ⟨_ | _, _⟩ <;> rfl)
    (fun _ _ => rfl)
    (fun p f g => by
      funext c
      simp only [bind_apply]
      rcases p c with ⟨_ | _, _⟩ <;> rfl)

theorem ite_bind {q : Prop} [Decidable q] (p p' : Reader α) (f : α → Reader β) :
    (if q then p else p') >>= f = if q then p >>= f else p' >>= f := by
  split <;> rfl

/-! ### Forwards -/

section Forwards

variable {c c' : Cursor} {p : Reader α} {f : α → Reader β}

theorem bind_of_none (h : p c = (none, c')) : (p >>= f) c = (none, c') := by
  rw [bind_apply, h]

theorem bind_of_some {a : α} (h : p c = (some a, c')) : (p >>= f) c = f a c' := by
  rw [bind_apply, h]

theorem map_of_some {g : α → β} {a : α} (h : p c = (some a, c')) :
    (g <$> p) c = (some (g a), c') :=
  bind_of_some h

theorem accept_cons (kinds : List TokenKind) (c : Cursor) {token : Token} {rest : List Token}
    (h : c.rest = token :: rest) (hmem : token.kind ∈ kinds) :
    accept kinds c = (some (some token), { c with rest := rest }) := by
  simp [accept, h, hmem]

theorem accept_of_not {kinds : List TokenKind}
    (h : ∀ token ∈ c.rest.head?, token.kind ∉ kinds) : accept kinds c = (some none, c) := by
  unfold accept
  split
  · rename_i token rest hrest
    rw [if_neg]
    simpa using h token (by simp [hrest])
  · rfl

theorem expect_cons (what : String) (c : Cursor) {kind : TokenKind} {token : Token}
    {rest : List Token} (h : c.rest = token :: rest) (hkind : token.kind = kind) :
    expect kind what c = (some token, { c with rest := rest }) := by
  have haccept := accept_cons [kind] _ h (by simp [hkind])
  unfold expect
  rw [bind_of_some haccept]
  rfl

/-- Without the token that is expected there is a fault at the next one. -/
theorem expect_of_not (what : String) {kind : TokenKind}
    (h : ∀ token ∈ c.rest.head?, token.kind ≠ kind) :
    expect kind what c = (none, (faultHere (.expected what) c).2) := by
  have haccept : accept [kind] c = (some none, c) :=
    accept_of_not fun token htoken hmem => h token htoken (List.mem_singleton.mp hmem)
  unfold expect
  rw [bind_of_some haccept]
  rfl

end Forwards

/-! ### Backwards -/

section Backwards

variable {c c' : Cursor}

theorem bind_eq_some {p : Reader α} {f : α → Reader β} {b : β}
    (h : (p >>= f) c = (some b, c')) :
    ∃ a c₁, p c = (some a, c₁) ∧ f a c₁ = (some b, c') := by
  rw [bind_apply] at h
  split at h
  · rename_i a c₁ hp
    exact ⟨a, c₁, hp, h⟩
  · simp at h

theorem pure_eq_some {a b : α} (h : (pure a : Reader α) c = (some b, c')) :
    a = b ∧ c = c' := by
  simpa [pure_apply] using h

theorem map_eq_some {p : Reader α} {g : α → β} {b : β} (h : (g <$> p) c = (some b, c')) :
    ∃ a, p c = (some a, c') ∧ g a = b := by
  obtain ⟨a, c₁, hp, h⟩ := bind_eq_some h
  obtain ⟨heq, rfl⟩ := pure_eq_some h
  exact ⟨a, hp, heq⟩

/-- Either the next token is accepted or none is. -/
theorem accept_cases (kinds : List TokenKind) (c : Cursor) :
    (accept kinds c = (some none, c) ∧ ∀ token ∈ c.rest.head?, token.kind ∉ kinds) ∨
      ∃ token rest, c.rest = token :: rest ∧ token.kind ∈ kinds ∧
        accept kinds c = (some (some token), { c with rest := rest }) := by
  cases hrest : c.rest with
  | nil => exact Or.inl ⟨accept_of_not (by simp [hrest]), by simp⟩
  | cons token rest =>
      by_cases hmem : token.kind ∈ kinds
      · exact Or.inr ⟨token, rest, rfl, hmem, accept_cons _ _ hrest hmem⟩
      · have hnot : ∀ t ∈ c.rest.head?, t.kind ∉ kinds := by simpa [hrest] using hmem
        exact Or.inl ⟨accept_of_not hnot, by simpa using hmem⟩

/-- What was read behind `accept` was read without a token or behind one. -/
theorem accept_bind_eq_some {kinds : List TokenKind} {f : Option Token → Reader β} {b : β}
    (h : (accept kinds >>= f) c = (some b, c')) :
    (f none c = (some b, c') ∧ ∀ token ∈ c.rest.head?, token.kind ∉ kinds) ∨
      ∃ token rest, c.rest = token :: rest ∧ token.kind ∈ kinds ∧
        f (some token) { c with rest := rest } = (some b, c') := by
  rcases accept_cases kinds c with ⟨ha, hnot⟩ | ⟨token, rest, hrest, hmem, ha⟩
  · rw [bind_of_some ha] at h
    exact Or.inl ⟨h, hnot⟩
  · rw [bind_of_some ha] at h
    exact Or.inr ⟨token, rest, hrest, hmem, h⟩

/-- What was read behind `expect` was read behind the expected token. -/
theorem expect_bind_eq_some {kind : TokenKind} {what : String} {f : Token → Reader β} {b : β}
    (h : (expect kind what >>= f) c = (some b, c')) :
    ∃ token rest, c.rest = token :: rest ∧ token.kind = kind ∧
      f token { c with rest := rest } = (some b, c') := by
  unfold expect at h
  rw [bind_assoc] at h
  rcases accept_bind_eq_some h with ⟨h, -⟩ | ⟨token, rest, hrest, hmem, h⟩
  · simp [bind_apply, faultHere, abandon] at h
  · exact ⟨token, rest, hrest, by simpa using hmem, h⟩

end Backwards

end Reader

open Reader

/-! ### The levels of operators -/

/-- Whether the expressions of a level are operands with operators between them. -/
def Level.isJoined : Level → Bool
  | comma | or | and | equality | comparison | term | factor => true
  | assignment | conditional | unary | call | primary => false

theorem expression_joined {level : Level} (h : level.isJoined) (fuel : Nat) :
    expression (fuel + 1) level
      = expression fuel level.tighter >>= fun left => operations fuel level left := by
  cases level <;> first | rfl | exact absurd h (by decide)

/-- The primary expression that a token begins. -/
def primaryAt (token : Token) (fuel : Nat) : Reader Expr :=
  match token.kind with
  | .kwFalse => pure (.literal (.bool false))
  | .kwTrue => pure (.literal (.bool true))
  | .kwNil => pure (.literal .nil)
  | .identifier => do
      let id ← freshId
      pure (.use ⟨token, id⟩)
  | .kwThis => do
      let id ← freshId
      pure (.this ⟨token, id⟩)
  | .kwSuper => do
      let _ ← expect .dot "'.' after 'super'"
      let method ← expect .identifier "superclass method name"
      let id ← freshId
      pure (.super ⟨token, id⟩ method)
  | .leftParen => do
      let inner ← expression fuel .comma
      let _ ← expect .rightParen "')' after expression"
      pure (.group inner)
  | _ => pure (.literal (token.literal?.getD .nil))

theorem primary_succ (fuel : Nat) : primary (fuel + 1) = (do
    match ← accept [.kwFalse, .kwTrue, .kwNil, .string, .number, .identifier, .kwThis,
        .kwSuper, .leftParen] with
    | none => noOperand fuel
    | some token => primaryAt token fuel) :=
  rfl

/-! ### Counted rows -/

/-- A fault if there are too many before. -/
def checkCount (count : Nat) (cause : Fault.Cause) : Reader Unit :=
  if maxArguments ≤ count then faultHere cause else pure ()

theorem argumentsFrom_succ (fuel count : Nat) : argumentsFrom (fuel + 1) count = (do
    let _ ← checkCount count .tooManyArguments
    let argument ← expression fuel .assignment
    match ← accept [.comma] with
    | none => pure [argument]
    | some _ => do
        let others ← argumentsFrom fuel (count + 1)
        pure (argument :: others)) := by
  rw [argumentsFrom, checkCount, ite_bind]
  rfl

theorem paramsFrom_succ (fuel count : Nat) : paramsFrom (fuel + 1) count = (do
    let _ ← checkCount count .tooManyParameters
    let param ← expect .identifier "parameter name"
    match ← accept [.comma] with
    | none => pure [param]
    | some _ => do
        let others ← paramsFrom fuel (count + 1)
        pure (param :: others)) := by
  rw [paramsFrom, checkCount, ite_bind]
  rfl

/-! ### Optional parts -/

/-- An expression, unless the token that ends it comes at once. -/
def optionalExpression (stop : TokenKind) (fuel : Nat) : Reader (Option Expr) := do
  if (← nextKind) = some stop then pure none else some <$> anyExpression fuel

/-- The initializer of a variable. -/
def optionalInitializer (fuel : Nat) : Reader (Option Expr) := do
  match ← accept [.equal] with
  | none => pure none
  | some _ => some <$> anyExpression fuel

theorem variableDeclaration_eq (fuel : Nat) : variableDeclaration fuel = (do
    let name ← expect .identifier "variable name"
    let initializer ← optionalInitializer fuel
    let _ ← expect .semicolon "';' after variable declaration"
    pure (.var name initializer)) := by
  unfold variableDeclaration optionalInitializer
  congr 1
  funext name
  rw [bind_assoc]
  congr 1
  funext token
  cases token <;> rfl

/-- The first clause of a `for`. -/
def forInitializer (fuel : Nat) : Reader (Option Stmt) := do
  match ← accept [.semicolon, .kwVar] with
  | none => some <$> expressionStatement fuel
  | some token =>
      if token.kind = .semicolon then pure none else some <$> variableDeclaration fuel

theorem forClauses_succ (fuel : Nat) : forClauses (fuel + 1) = (do
    let _ ← expect .leftParen "'(' after 'for'"
    let initializer ← forInitializer fuel
    let condition ← optionalExpression .semicolon fuel
    let _ ← expect .semicolon "';' after loop condition"
    let increment ← optionalExpression .rightParen fuel
    let _ ← expect .rightParen "')' after for clauses"
    let body ← statement fuel
    pure (forLoop initializer (condition.getD (.literal (.bool true))) increment body)) := by
  rw [forClauses]
  unfold forInitializer optionalExpression
  simp only [bind_assoc]
  congr 1
  funext _
  congr 1
  funext token
  cases token <;> simp only [ite_bind, pure_bind, bind_map_left, Option.getD_none,
    Option.getD_some]

/-- The superclass of a class. -/
def optionalSuperclass : Reader (Option Occurrence) := do
  match ← accept [.less] with
  | none => pure none
  | some _ => do
      let superName ← expect .identifier "superclass name"
      let id ← freshId
      pure (some ⟨superName, id⟩)

theorem classDeclaration_succ (fuel : Nat) : classDeclaration (fuel + 1) = (do
    let name ← expect .identifier "class name"
    let superclass ← optionalSuperclass
    let _ ← expect .leftBrace "'\x7b' before class body"
    let declared ← methods fuel
    let _ ← expect .rightBrace "'\x7d' after class body"
    pure (.classDecl name superclass declared)) := by
  rw [classDeclaration]
  unfold optionalSuperclass
  congr 1
  funext name
  rw [bind_assoc]
  congr 1
  funext token
  cases token <;> simp only [bind_assoc, pure_bind]

/-- A `return` with or without a value, when its keyword has been read. -/
def returnStatement (keyword : Token) (fuel : Nat) : Reader Stmt := do
  let value ← optionalExpression .semicolon fuel
  let _ ← expect .semicolon "';' after return value"
  pure (.returnWith keyword value)

/-- A condition in parentheses, when the keyword in front of it has been read. -/
def parenthesized (opening closing : String) (fuel : Nat) : Reader Expr := do
  let _ ← expect .leftParen opening
  let condition ← anyExpression fuel
  let _ ← expect .rightParen closing
  pure condition

/-- The statement that a keyword begins. -/
def statementAt (token : Token) (fuel : Nat) : Reader Stmt :=
  match token.kind with
  | .kwBreak => do
      let _ ← expect .semicolon "';' after 'break'"
      pure (.breakLoop token)
  | .kwFor => forClauses fuel
  | .kwIf => do
      let condition ← parenthesized "'(' after 'if'" "')' after if condition" fuel
      let onTrue ← statement fuel
      match ← accept [.kwElse] with
      | none => pure (.ifElse condition onTrue none)
      | some _ => do
          let onFalse ← statement fuel
          pure (.ifElse condition onTrue (some onFalse))
  | .kwPrint => do
      let value ← anyExpression fuel
      let _ ← expect .semicolon "';' after value"
      pure (.print token value)
  | .kwReturn => returnStatement token fuel
  | .kwWhile => do
      let condition ← parenthesized "'(' after 'while'" "')' after condition" fuel
      let body ← statement fuel
      pure (.whileLoop condition body)
  | _ => .block <$> block fuel

theorem statement_succ (fuel : Nat) : statement (fuel + 1) = (do
    match ← accept [.kwBreak, .kwFor, .kwIf, .kwPrint, .kwReturn, .kwWhile, .leftBrace] with
    | none => expressionStatement fuel
    | some token => statementAt token fuel) := by
  rw [statement]
  congr 1
  funext token
  cases token with
  | none => rfl
  | some token =>
      dsimp only
      generalize hat : statementAt token fuel = reader
      simp only [statementAt, parenthesized, returnStatement, optionalExpression, bind_assoc,
        ite_bind, pure_bind] at hat ⊢
      exact hat

/-- The declaration that a keyword begins. -/
def declarationAt (token : Token) (fuel : Nat) : Reader Stmt :=
  match token.kind with
  | .kwClass => classDeclaration fuel
  | .kwFun => .function <$> function fuel "function"
  | _ => variableDeclaration fuel

/-- A declaration or a statement that is not yet recovered from. -/
def keptDeclaration (fuel : Nat) : Reader Stmt := do
  match ← accept [.kwClass, .kwFun, .kwVar] with
  | none => statement fuel
  | some token => declarationAt token fuel

theorem declaration_eq {fuel : Nat} (h : 0 < fuel) :
    declaration fuel = recovering (keptDeclaration (fuel - 1)) := by
  obtain ⟨fuel, rfl⟩ := Nat.exists_eq_succ_of_ne_zero (Nat.ne_of_gt h)
  rfl

/-- In front of anything but the end of a block there is another declaration. -/
theorem declarations_of_head (fuel : Nat) {c : Cursor} {token : Token} {rest : List Token}
    (hrest : c.rest = token :: rest) (h : token.kind ≠ .rightBrace) :
    declarations (fuel + 1) c = (do
      let first ← declaration fuel
      let others ← declarations fuel
      pure (first.toList ++ others)) c := by
  rw [declarations, bind_of_some (rfl : nextKind c = _), hrest, List.head?_cons, Option.map_some]
  revert h
  generalize token.kind = kind
  intro h
  cases kind <;> first | rfl | exact absurd rfl h

/-- In front of anything but the end of a class there is another method. -/
theorem methods_of_head (fuel : Nat) {c : Cursor} {token : Token} {rest : List Token}
    (hrest : c.rest = token :: rest) (h : token.kind ≠ .rightBrace) :
    methods (fuel + 1) c = (do
      let method ← function fuel "method"
      let others ← methods fuel
      pure (method :: others)) c := by
  rw [methods, bind_of_some (rfl : nextKind c = _), hrest, List.head?_cons, Option.map_some]
  revert h
  generalize token.kind = kind
  intro h
  cases kind <;> first | rfl | exact absurd rfl h

/-! ### Reading to the end -/

theorem toEnd_of_nil {c : Cursor} (hrest : c.rest = []) (fuel : Nat) :
    toEnd fuel c = ([], c) := by
  cases fuel with
  | zero => rfl
  | succ fuel => simp only [toEnd, hrest]

theorem toEnd_of_declaration {fuel : Nat} {c c' : Cursor} {token : Token} {rest : List Token}
    {first : Option (Option Stmt)} (hrest : c.rest = token :: rest)
    (hfirst : declaration fuel c = (first, c')) :
    toEnd (fuel + 1) c = (first.join.toList ++ (toEnd fuel c').1, (toEnd fuel c').2) := by
  simp only [toEnd, hrest, hfirst]

end Lox.Grammar
