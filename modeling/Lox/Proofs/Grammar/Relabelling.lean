/-
Reading does not depend on where the numbers start, nor on the lines.

A reader only ever adds one to the number of the latest occurrence, takes the lines of the
tokens as they come, and no decision depends on either.  So a program that is read where the
numbers are larger by `n` and the lines are other ones is the same program with all its
numbers larger by `n` and on the other lines, whether it has faults or not, and its faults
are the same, on the other lines.

`Shifts n l` says this of a single reader, and is proved of every reader of the grammar
along the counter that they count down.
-/
import Lox.Proofs.Grammar.Steps
import Lox.Proofs.Syntax.Renumbering

namespace Lox.Grammar

/-- The cursor with the numbers that come next larger by `n`, and other lines. -/
def Cursor.shift (n : Nat) (l : Nat → Nat) (c : Cursor) : Cursor :=
  ⟨c.rest.map (Token.reline l), l c.endLine, c.lastId + n, c.faults.map (Fault.reline l)⟩

variable {n : Nat} {l : Nat → Nat}

@[simp] theorem Cursor.shift_rest (c : Cursor) :
    (c.shift n l).rest = c.rest.map (Token.reline l) :=
  rfl

@[simp] theorem Cursor.shift_endLine (c : Cursor) : (c.shift n l).endLine = l c.endLine :=
  rfl

@[simp] theorem Cursor.shift_faults (c : Cursor) :
    (c.shift n l).faults = c.faults.map (Fault.reline l) :=
  rfl

namespace Reader

variable {α β γ δ : Type}

/-- Where the numbers are larger by `n` and the lines are other ones, the second reader does
what the first one does elsewhere, and keeps what the first one keeps but for the numbers and
the lines in it. -/
def Shifts (n : Nat) (l : Nat → Nat) (g : α → β) (p : Reader α) (q : Reader β) : Prop :=
  ∀ c : Cursor, q (c.shift n l) = ((p c).1.map g, (p c).2.shift n l)

/-- Reading resumes at the same token. -/
theorem recover_reline (tokens : List Token) :
    recover (tokens.map (Token.reline l)) = (recover tokens).map (Token.reline l) := by
  fun_induction recover tokens with
  | case1 => rfl
  | case2 => rfl
  | case3 skipped next rest h =>
      rw [List.map_cons, List.map_cons, recover]
      exact if_pos h
  | case4 skipped next rest h ih =>
      rw [List.map_cons, List.map_cons, recover, ← List.map_cons, ih]
      exact if_neg h

namespace Shifts

variable {g : α → β} {h : γ → δ} {p : Reader α} {q : Reader β}

theorem pure {a : α} {b : β} (hab : g a = b) : Shifts n l g (Pure.pure a) (Pure.pure b) := by
  intro c
  rw [← hab]
  rfl

theorem bind {f : α → Reader γ} {f' : β → Reader δ} (hp : Shifts n l g p q)
    (hf : ∀ a, Shifts n l h (f a) (f' (g a))) : Shifts n l h (p >>= f) (q >>= f') := by
  intro c
  have hc := hp c
  rw [bind_apply, bind_apply, hc]
  rcases p c with ⟨_ | a, c'⟩
  · rfl
  · exact hf a c'

/-- What has no labels in it is the same for both. -/
theorem andThen {p q : Reader α} {f : α → Reader γ} {f' : α → Reader δ} (hp : Shifts n l id p q)
    (hf : ∀ a, Shifts n l h (f a) (f' a)) : Shifts n l h (p >>= f) (q >>= f') :=
  hp.bind hf

theorem map {k : α → γ} {k' : β → δ} (hp : Shifts n l g p q) (hk : ∀ a, h (k a) = k' (g a)) :
    Shifts n l h (k <$> p) (k' <$> q) :=
  hp.bind fun a => .pure (hk a)

theorem abandon : Shifts n l g abandon abandon := by
  intro c
  rfl

/-! ### The steps everything is read by -/

theorem nextKind : Shifts n l id nextKind nextKind := by
  intro c
  unfold Reader.nextKind
  rw [Cursor.shift_rest]
  cases c.rest <;> rfl

theorem accept (kinds : List TokenKind) :
    Shifts n l (Option.map (Token.reline l)) (accept kinds) (accept kinds) := by
  intro c
  unfold Reader.accept
  rw [Cursor.shift_rest]
  cases c.rest with
  | nil => rfl
  | cons token rest =>
      rw [List.map_cons]
      dsimp only
      rw [Token.reline_kind]
      split <;> rfl

theorem faultAt (token : Token) (cause : Fault.Cause) :
    Shifts n l id (faultAt token cause) (faultAt (token.reline l) cause) := by
  intro c
  simp only [Reader.faultAt, Cursor.shift, List.map_append]
  rfl

theorem faultHere (cause : Fault.Cause) : Shifts n l id (faultHere cause) (faultHere cause) := by
  intro c
  unfold Reader.faultHere Cursor.shift
  simp only [List.map_append]
  cases c.rest <;> rfl

theorem expect (kind : TokenKind) (what : String) :
    Shifts n l (Token.reline l) (expect kind what) (expect kind what) := by
  apply (accept [kind]).bind
  intro token
  cases token with
  | none => exact (faultHere _).andThen fun _ => abandon
  | some token => exact .pure rfl

theorem freshId : Shifts n l (· + n) freshId freshId := by
  intro c
  simp only [Reader.freshId, Cursor.shift, Option.map_some, Prod.mk.injEq, Cursor.mk.injEq,
    Option.some.injEq, true_and, and_true]
  omega

theorem attempt (hp : Shifts n l g p q) : Shifts n l (Option.map g) (attempt p) (attempt q) := by
  intro c
  have hc := hp c
  simp only [Reader.attempt, hc]
  rfl

theorem recovering (hp : Shifts n l g p q) :
    Shifts n l (Option.map g) (recovering p) (recovering q) := by
  intro c
  have hc := hp c
  unfold Grammar.recovering
  rw [hc]
  rcases p c with ⟨_ | a, c'⟩
  · simp only [Option.map_none, Cursor.shift, recover_reline]
    rfl
  · rfl

end Shifts

end Reader

open Reader

/-! ### Trees from their parts -/

theorem combine_relabel (f l : Nat → Nat) (operator : Token) (left right : Expr) :
    (combine operator left right).relabel f l
      = combine (operator.reline l) (left.relabel f l) (right.relabel f l) := by
  unfold combine
  rw [Token.reline_kind]
  split <;> rfl

theorem forLoop_relabel (f l : Nat → Nat) (initializer : Option Stmt) (condition : Expr)
    (increment : Option Expr) (body : Stmt) :
    (forLoop initializer condition increment body).relabel f l
      = forLoop (initializer.map (Stmt.relabel f l)) (condition.relabel f l)
          (increment.map (Expr.relabel f l)) (body.relabel f l) := by
  cases initializer <;> cases increment <;> rfl

theorem assignTo_shifts (target : Expr) (equals : Token) (value : Expr) :
    Shifts n l (Expr.relabel (· + n) l) (assignTo target equals value)
      (assignTo (target.relabel (· + n) l) (equals.reline l) (value.relabel (· + n) l)) := by
  unfold assignTo
  cases target with
  | use occurrence => exact Shifts.freshId.bind fun _ => .pure rfl
  | get object property => exact .pure rfl
  | _ => exact (Shifts.faultAt _ _).andThen fun _ => .pure rfl

theorem checkCount_shifts (count : Nat) (cause : Fault.Cause) :
    Shifts n l id (checkCount count cause) (checkCount count cause) := by
  unfold checkCount
  split
  · exact .faultHere cause
  · exact .pure rfl

/-! ### Expressions -/

mutual

theorem expression_shifts : ∀ (fuel : Nat) (level : Level),
    Shifts n l (Expr.relabel (· + n) l) (expression fuel level) (expression fuel level)
  | 0, _ => .abandon
  | fuel + 1, level => by
      by_cases hjoined : level.isJoined
      · rw [expression_joined hjoined]
        exact (expression_shifts fuel level.tighter).bind (operations_shifts fuel level)
      cases level with
      | assignment =>
          apply (expression_shifts fuel .conditional).bind
          intro target
          apply (Shifts.accept _).bind
          rintro (_ | equals)
          · exact .pure rfl
          · exact (expression_shifts fuel .assignment).bind (assignTo_shifts target equals)
      | conditional =>
          apply (expression_shifts fuel .or).bind
          intro condition
          apply (Shifts.accept _).bind
          rintro (_ | question)
          · exact .pure rfl
          · apply (expression_shifts fuel .comma).bind
            intro onTrue
            apply (Shifts.expect _ _).bind
            intro colon
            exact (expression_shifts fuel .conditional).bind fun onFalse => .pure rfl
      | unary =>
          apply (Shifts.accept _).bind
          rintro (_ | operator)
          · exact expression_shifts fuel .call
          · exact (expression_shifts fuel .unary).bind fun operand => .pure rfl
      | call => exact (expression_shifts fuel .primary).bind (suffixes_shifts fuel)
      | primary => exact primary_shifts fuel
      | _ => exact absurd rfl hjoined

theorem operations_shifts : ∀ (fuel : Nat) (level : Level) (left : Expr),
    Shifts n l (Expr.relabel (· + n) l) (operations fuel level left)
      (operations fuel level (left.relabel (· + n) l))
  | 0, _, _ => .abandon
  | fuel + 1, level, left => by
      apply (Shifts.accept _).bind
      rintro (_ | operator)
      · exact .pure rfl
      · apply (expression_shifts fuel level.tighter).bind
        intro right
        rw [← combine_relabel]
        exact operations_shifts fuel level (combine operator left right)

theorem suffixes_shifts : ∀ (fuel : Nat) (callee : Expr),
    Shifts n l (Expr.relabel (· + n) l) (suffixes fuel callee)
      (suffixes fuel (callee.relabel (· + n) l))
  | 0, _ => .abandon
  | fuel + 1, callee => by
      apply (Shifts.accept _).bind
      rintro (_ | token)
      · exact .pure rfl
      dsimp only [Option.map_some]
      rw [Token.reline_kind]
      split
      · apply (arguments_shifts fuel).bind
        intro arguments
        apply (Shifts.expect _ _).bind
        intro paren
        rw [← Expr.relabelAll_eq_map]
        exact suffixes_shifts fuel (.call callee paren arguments)
      · apply (Shifts.expect _ _).bind
        intro property
        exact suffixes_shifts fuel (.get callee property)

theorem arguments_shifts : ∀ fuel : Nat,
    Shifts n l (List.map (Expr.relabel (· + n) l)) (arguments fuel) (arguments fuel)
  | 0 => .abandon
  | fuel + 1 => by
      apply Shifts.nextKind.andThen
      intro kind
      split
      · exact .pure rfl
      · exact argumentsFrom_shifts fuel 0

theorem argumentsFrom_shifts : ∀ fuel count : Nat,
    Shifts n l (List.map (Expr.relabel (· + n) l)) (argumentsFrom fuel count)
      (argumentsFrom fuel count)
  | 0, _ => .abandon
  | fuel + 1, count => by
      rw [argumentsFrom_succ]
      apply (checkCount_shifts _ _).andThen
      intro _
      apply (expression_shifts fuel .assignment).bind
      intro argument
      apply (Shifts.accept _).bind
      rintro (_ | comma)
      · exact .pure rfl
      · exact (argumentsFrom_shifts fuel (count + 1)).bind fun others => .pure rfl

theorem primary_shifts : ∀ fuel : Nat,
    Shifts n l (Expr.relabel (· + n) l) (primary fuel) (primary fuel)
  | 0 => .abandon
  | fuel + 1 => by
      rw [primary_succ]
      apply (Shifts.accept _).bind
      rintro (_ | token)
      · exact noOperand_shifts fuel
      dsimp only [Option.map_some]
      unfold primaryAt
      rw [Token.reline_kind]
      split
      · exact .pure rfl
      · exact .pure rfl
      · exact .pure rfl
      · exact Shifts.freshId.bind fun _ => .pure rfl
      · exact Shifts.freshId.bind fun _ => .pure rfl
      · apply (Shifts.expect _ _).bind
        intro dot
        apply (Shifts.expect _ _).bind
        intro method
        exact Shifts.freshId.bind fun _ => .pure rfl
      · apply (expression_shifts fuel .comma).bind
        intro inner
        exact (Shifts.expect _ _).bind fun _ => .pure rfl
      · exact .pure rfl

theorem noOperand_shifts : ∀ fuel : Nat,
    Shifts n l (Expr.relabel (· + n) l) (noOperand fuel) (noOperand fuel)
  | 0 => .abandon
  | fuel + 1 => by
      apply Shifts.nextKind.andThen
      intro kind
      cases kind.bind Level.ofOrphan? with
      | none => exact (Shifts.faultHere _).andThen fun _ => .abandon
      | some level =>
          apply (Shifts.faultHere _).andThen
          intro _
          apply (Shifts.accept _).bind
          intro operator
          exact (expression_shifts fuel level).attempt.bind fun _ => .abandon

end

theorem anyExpression_shifts (fuel : Nat) :
    Shifts n l (Expr.relabel (· + n) l) (anyExpression fuel) (anyExpression fuel) :=
  expression_shifts fuel .comma

/-! ### Optional parts -/

theorem optionalExpression_shifts (stop : TokenKind) (fuel : Nat) :
    Shifts n l (Option.map (Expr.relabel (· + n) l)) (optionalExpression stop fuel)
      (optionalExpression stop fuel) := by
  apply Shifts.nextKind.andThen
  intro kind
  split
  · exact .pure rfl
  · exact (anyExpression_shifts fuel).map fun _ => rfl

theorem optionalInitializer_shifts (fuel : Nat) :
    Shifts n l (Option.map (Expr.relabel (· + n) l)) (optionalInitializer fuel)
      (optionalInitializer fuel) := by
  apply (Shifts.accept _).bind
  rintro (_ | equals)
  · exact .pure rfl
  · exact (anyExpression_shifts fuel).map fun _ => rfl

theorem variableDeclaration_shifts (fuel : Nat) :
    Shifts n l (Stmt.relabel (· + n) l) (variableDeclaration fuel) (variableDeclaration fuel) := by
  rw [variableDeclaration_eq]
  apply (Shifts.expect _ _).bind
  intro name
  apply (optionalInitializer_shifts fuel).bind
  intro initializer
  exact (Shifts.expect _ _).bind fun _ => .pure rfl

theorem expressionStatement_shifts (fuel : Nat) :
    Shifts n l (Stmt.relabel (· + n) l) (expressionStatement fuel) (expressionStatement fuel) := by
  apply (anyExpression_shifts fuel).bind
  intro value
  exact (Shifts.expect _ _).bind fun _ => .pure rfl

theorem forInitializer_shifts (fuel : Nat) :
    Shifts n l (Option.map (Stmt.relabel (· + n) l)) (forInitializer fuel)
      (forInitializer fuel) := by
  apply (Shifts.accept _).bind
  rintro (_ | token)
  · exact (expressionStatement_shifts fuel).map fun _ => rfl
  dsimp only [Option.map_some]
  rw [Token.reline_kind]
  split
  · exact .pure rfl
  · exact (variableDeclaration_shifts fuel).map fun _ => rfl

theorem optionalSuperclass_shifts :
    Shifts n l (Option.map (Occurrence.relabel (· + n) l)) optionalSuperclass
      optionalSuperclass := by
  apply (Shifts.accept _).bind
  rintro (_ | less)
  · exact .pure rfl
  · apply (Shifts.expect _ _).bind
    intro superName
    exact Shifts.freshId.bind fun _ => .pure rfl

theorem returnStatement_shifts (keyword : Token) (fuel : Nat) :
    Shifts n l (Stmt.relabel (· + n) l) (returnStatement keyword fuel)
      (returnStatement (keyword.reline l) fuel) := by
  apply (optionalExpression_shifts .semicolon fuel).bind
  intro value
  exact (Shifts.expect _ _).bind fun _ => .pure rfl

theorem parenthesized_shifts (opening closing : String) (fuel : Nat) :
    Shifts n l (Expr.relabel (· + n) l) (parenthesized opening closing fuel)
      (parenthesized opening closing fuel) := by
  apply (Shifts.expect _ _).bind
  intro _
  apply (anyExpression_shifts fuel).bind
  intro condition
  exact (Shifts.expect _ _).bind fun _ => .pure rfl

theorem paramsFrom_shifts : ∀ fuel count : Nat,
    Shifts n l (List.map (Token.reline l)) (paramsFrom fuel count) (paramsFrom fuel count)
  | 0, _ => .abandon
  | fuel + 1, count => by
      rw [paramsFrom_succ]
      apply (checkCount_shifts _ _).andThen
      intro _
      apply (Shifts.expect _ _).bind
      intro param
      apply (Shifts.accept _).bind
      rintro (_ | comma)
      · exact .pure rfl
      · exact (paramsFrom_shifts fuel (count + 1)).bind fun others => .pure rfl

theorem params_shifts (fuel : Nat) :
    Shifts n l (List.map (Token.reline l)) (params fuel) (params fuel) := by
  apply Shifts.nextKind.andThen
  intro kind
  split
  · exact .pure rfl
  · exact paramsFrom_shifts fuel 0

/-! ### Statements and declarations -/

mutual

theorem declaration_shifts : ∀ fuel : Nat,
    Shifts n l (Option.map (Stmt.relabel (· + n) l)) (declaration fuel) (declaration fuel)
  | 0 => .abandon
  | fuel + 1 => by
      rw [declaration_eq (Nat.succ_pos fuel)]
      apply Shifts.recovering
      apply (Shifts.accept _).bind
      rintro (_ | token)
      · exact statement_shifts fuel
      dsimp only [Option.map_some]
      unfold declarationAt
      rw [Token.reline_kind]
      split
      · exact classDeclaration_shifts fuel
      · exact (function_shifts fuel "function").map fun _ => rfl
      · exact variableDeclaration_shifts fuel

theorem classDeclaration_shifts : ∀ fuel : Nat,
    Shifts n l (Stmt.relabel (· + n) l) (classDeclaration fuel) (classDeclaration fuel)
  | 0 => .abandon
  | fuel + 1 => by
      rw [classDeclaration_succ]
      apply (Shifts.expect _ _).bind
      intro name
      apply optionalSuperclass_shifts.bind
      intro superclass
      apply (Shifts.expect _ _).bind
      intro _
      apply (methods_shifts fuel).bind
      intro declared
      rw [← FunctionDecl.relabelAll_eq_map]
      exact (Shifts.expect _ _).bind fun _ => .pure rfl

theorem methods_shifts : ∀ fuel : Nat,
    Shifts n l (List.map (FunctionDecl.relabel (· + n) l)) (methods fuel) (methods fuel)
  | 0 => .abandon
  | fuel + 1 => by
      apply Shifts.nextKind.andThen
      intro kind
      split
      · exact .pure rfl
      · exact .pure rfl
      · apply (function_shifts fuel "method").bind
        intro method
        exact (methods_shifts fuel).bind fun others => .pure rfl

theorem function_shifts : ∀ (fuel : Nat) (role : String),
    Shifts n l (FunctionDecl.relabel (· + n) l) (function fuel role) (function fuel role)
  | 0, _ => .abandon
  | fuel + 1, role => by
      apply (Shifts.expect _ _).bind
      intro name
      apply (Shifts.expect _ _).bind
      intro _
      apply (params_shifts fuel).bind
      intro params
      apply (Shifts.expect _ _).bind
      intro _
      apply (Shifts.expect _ _).bind
      intro _
      apply (block_shifts fuel).bind
      intro body
      rw [← Stmt.relabelAll_eq_map]
      exact .pure rfl

theorem block_shifts : ∀ fuel : Nat,
    Shifts n l (List.map (Stmt.relabel (· + n) l)) (block fuel) (block fuel)
  | 0 => .abandon
  | fuel + 1 => by
      apply (declarations_shifts fuel).bind
      intro body
      exact (Shifts.expect _ _).bind fun _ => .pure rfl

theorem declarations_shifts : ∀ fuel : Nat,
    Shifts n l (List.map (Stmt.relabel (· + n) l)) (declarations fuel) (declarations fuel)
  | 0 => .abandon
  | fuel + 1 => by
      apply Shifts.nextKind.andThen
      intro kind
      split
      · exact .pure rfl
      · exact .pure rfl
      · apply (declaration_shifts fuel).bind
        intro first
        apply (declarations_shifts fuel).bind
        intro others
        refine .pure ?_
        cases first <;> rfl

theorem statement_shifts : ∀ fuel : Nat,
    Shifts n l (Stmt.relabel (· + n) l) (statement fuel) (statement fuel)
  | 0 => .abandon
  | fuel + 1 => by
      rw [statement_succ]
      apply (Shifts.accept _).bind
      rintro (_ | token)
      · exact expressionStatement_shifts fuel
      dsimp only [Option.map_some]
      unfold statementAt
      rw [Token.reline_kind]
      split
      · exact (Shifts.expect _ _).bind fun _ => .pure rfl
      · exact forClauses_shifts fuel
      · apply (parenthesized_shifts _ _ fuel).bind
        intro condition
        apply (statement_shifts fuel).bind
        intro onTrue
        apply (Shifts.accept _).bind
        rintro (_ | otherwise)
        · exact .pure rfl
        · exact (statement_shifts fuel).bind fun onFalse => .pure rfl
      · apply (anyExpression_shifts fuel).bind
        intro value
        exact (Shifts.expect _ _).bind fun _ => .pure rfl
      · exact returnStatement_shifts token fuel
      · apply (parenthesized_shifts _ _ fuel).bind
        intro condition
        exact (statement_shifts fuel).bind fun body => .pure rfl
      · apply (block_shifts fuel).map
        intro body
        rw [← Stmt.relabelAll_eq_map]
        rfl

theorem forClauses_shifts : ∀ fuel : Nat,
    Shifts n l (Stmt.relabel (· + n) l) (forClauses fuel) (forClauses fuel)
  | 0 => .abandon
  | fuel + 1 => by
      rw [forClauses_succ]
      apply (Shifts.expect _ _).bind
      intro _
      apply (forInitializer_shifts fuel).bind
      intro initializer
      apply (optionalExpression_shifts _ fuel).bind
      intro condition
      apply (Shifts.expect _ _).bind
      intro _
      apply (optionalExpression_shifts _ fuel).bind
      intro increment
      apply (Shifts.expect _ _).bind
      intro _
      apply (statement_shifts fuel).bind
      intro body
      refine .pure ?_
      rw [forLoop_relabel]
      cases condition <;> rfl

end

/-! ### Whole programs -/

theorem toEnd_shift (fuel : Nat) (c : Cursor) :
    toEnd fuel (c.shift n l)
      = ((toEnd fuel c).1.map (Stmt.relabel (· + n) l), (toEnd fuel c).2.shift n l) := by
  induction fuel generalizing c with
  | zero => rfl
  | succ fuel ih =>
      unfold toEnd
      rw [Cursor.shift_rest]
      cases c.rest with
      | nil => rfl
      | cons token rest =>
          have hfirst := declaration_shifts (n := n) (l := l) fuel c
          dsimp only [List.map_cons]
          rw [hfirst, ih]
          dsimp only
          rw [List.map_append]
          rcases (declaration fuel c).1 with _ | _ | s <;> rfl

/-- **Where the numbers start and what the lines are is all that they depend on.**  The same
tokens on other lines have the same faults on these lines behind whatever was read before, and
their program differs in the numbers and the lines only. -/
theorem parse_shift (tokens : List Token) (endLine lastId n : Nat) (l : Nat → Nat) :
    parse (tokens.map (Token.reline l)) (l endLine) (lastId + n)
      = ⟨(parse tokens endLine lastId).program.map (Stmt.relabel (· + n) l),
          (parse tokens endLine lastId).faults.map (Fault.reline l),
          (parse tokens endLine lastId).lastId + n⟩ := by
  have hfuel : fuelFor (tokens.map (Token.reline l)) = fuelFor tokens := by
    rw [fuelFor, fuelFor, List.length_map]
  have h := toEnd_shift (n := n) (l := l) (fuelFor tokens) ⟨tokens, endLine, lastId, []⟩
  unfold parse
  rw [hfuel]
  simp only [Cursor.shift, List.map_nil] at h
  rw [h]

/-! ### Another start of the counter -/

section Restart

variable (tokens : List Token) (endLine : Nat)

/-- A counter that starts further on gives all numbers further on. -/
theorem parse_ahead (k n : Nat) :
    parse tokens endLine (k + n)
      = ⟨(parse tokens endLine k).program.map (Stmt.renumber (· + n)),
          (parse tokens endLine k).faults, (parse tokens endLine k).lastId + n⟩ := by
  have hshift := parse_shift tokens endLine k n id
  rw [Token.map_reline_by_id, Fault.map_reline_by_id, id_eq] at hshift
  have hsame : Stmt.renumber (· + n) = Stmt.relabel (· + n) id :=
    funext Stmt.renumber_eq_relabel
  rw [hshift, hsame]

/-- The numbers differ by how much the starts differ. -/
theorem parse_restart (k k' : Nat) :
    parse tokens endLine k'
      = ⟨(parse tokens endLine k).program.map (Stmt.renumber fun id => id + k' - k),
          (parse tokens endLine k).faults, (parse tokens endLine k).lastId + k' - k⟩ := by
  have hback : Stmt.renumber (fun id => id + k' - k) ∘ Stmt.renumber (· + k)
      = Stmt.renumber (· + k') := by
    have hnumbers : (fun id => id + k' - k) ∘ (· + k) = (· + k') := by
      funext id
      show id + k + k' - k = id + k'
      omega
    funext s
    rw [Function.comp_apply, Stmt.renumber_eq_relabel, Stmt.renumber_eq_relabel,
      Stmt.relabel_relabel, hnumbers, Stmt.renumber_eq_relabel]
    rfl
  -- Both are compared with the counter that starts at zero.
  have hfrom := parse_ahead tokens endLine 0 k
  have hto := parse_ahead tokens endLine 0 k'
  rw [Nat.zero_add] at hfrom hto
  have hlast : (parse tokens endLine 0).lastId + k + k' - k
      = (parse tokens endLine 0).lastId + k' := by
    omega
  rw [hfrom, hto]
  dsimp only
  rw [List.map_map, hback, hlast]

end Restart

end Lox.Grammar
