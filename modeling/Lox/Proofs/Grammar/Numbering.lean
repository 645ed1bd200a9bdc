/-
How occurrences are numbered while reading.

The counter never goes back, also not where a reading is abandoned or a fault is found.
So of everything that is kept, however malformed the tokens are, the numbers were given
out one after the other: no two occurrences have one number, and all numbers lie between
the counter in front of the reading and the counter behind it.
-/
import Mathlib.Data.List.Perm.Subperm
import Lox.Proofs.Grammar.Steps
import Lox.Proofs.Grammar.Trees

namespace Lox.Grammar

open Reader

namespace Reader

variable {α β : Type} {before : List Nat} {ids : α → List Nat} {ids' : β → List Nat}
  {p : Reader α} {f : α → Reader β}

/-- The numbers in whatever `p` keeps were given out one after the other, if those in what
was read in front of it, `before`, were. -/
structure Numbers (before : List Nat) (ids : α → List Nat) (p : Reader α) : Prop where
  le : ∀ c : Cursor, c.lastId ≤ (p c).2.lastId
  kept : ∀ (c : Cursor) (first : Nat), Numbered first before c.lastId →
    ∀ a ∈ (p c).1, Numbered first (ids a) (p c).2.lastId

/-- A step that gives out no number. -/
def Quiet (p : Reader α) : Prop :=
  ∀ c : Cursor, (p c).2.lastId = c.lastId

namespace Quiet

theorem nextKind : Quiet nextKind :=
  fun _ => rfl

theorem accept (kinds : List TokenKind) : Quiet (accept kinds) := by
  intro c
  unfold Reader.accept
  split
  · split <;> rfl
  · rfl

theorem faultAt (token : Token) (cause : Fault.Cause) : Quiet (faultAt token cause) :=
  fun _ => rfl

theorem faultHere (cause : Fault.Cause) : Quiet (faultHere cause) :=
  fun _ => rfl

theorem pure (a : α) : Quiet (Pure.pure a) :=
  fun _ => rfl

theorem abandon : Quiet (abandon : Reader α) :=
  fun _ => rfl

theorem bind (hp : Quiet p) (hf : ∀ a, Quiet (f a)) : Quiet (p >>= f) := by
  intro c
  have hfirst := hp c
  rw [bind_apply]
  rcases hresult : p c with ⟨_ | a, c'⟩ <;> rw [hresult] at hfirst
  · exact hfirst
  · exact (hf a c').trans hfirst

theorem expect (kind : TokenKind) (what : String) : Quiet (expect kind what) := by
  refine (accept _).bind fun token => ?_
  cases token with
  | none => exact (faultHere _).bind fun _ => abandon
  | some token => exact pure token

theorem checkCount (count : Nat) (cause : Fault.Cause) : Quiet (checkCount count cause) := by
  unfold Grammar.checkCount
  split
  · exact faultHere cause
  · exact pure ()

end Quiet

namespace Numbers

/-- What was kept may be left out, and listed in another order. -/
theorem pure_of_subperm {a : α} (h : (ids a).Subperm before) :
    Numbers before ids (Pure.pure a) := by
  refine ⟨fun c => Nat.le_refl _, fun c first hbefore b hb => ?_⟩
  obtain rfl := Option.some.inj hb
  obtain ⟨row, hperm, hsub⟩ := h
  exact ⟨hbefore.le, hperm.nodup (hsub.nodup hbefore.nodup), fun id hid =>
    hbefore.within id (hsub.subset (hperm.symm.subset hid))⟩

theorem pure {a : α} (h : ids a = before) : Numbers before ids (Pure.pure a) :=
  .pure_of_subperm (h ▸ List.Subperm.refl _)

theorem abandon : Numbers before ids (abandon : Reader α) :=
  ⟨fun _ => Nat.le_refl _, fun _ _ _ _ h => absurd h (by simp [Reader.abandon])⟩

/-- A step that gives out no number. -/
theorem quiet (hp : Quiet p) (hf : ∀ a, Numbers before ids' (f a)) :
    Numbers before ids' (p >>= f) := by
  constructor
  · intro c
    have hfirst := hp c
    rw [bind_apply]
    rcases hresult : p c with ⟨_ | a, c'⟩ <;> rw [hresult] at hfirst
    · exact Nat.le_of_eq hfirst.symm
    · exact Nat.le_trans (Nat.le_of_eq hfirst.symm) ((hf a).le c')
  · intro c first hbefore b hb
    have hfirst := hp c
    rw [bind_apply] at hb ⊢
    rcases hresult : p c with ⟨_ | a, c'⟩ <;> rw [hresult] at hfirst hb
    · exact absurd hb (by simp)
    · have hsame : c'.lastId = c.lastId := hfirst
      exact (hf a).kept c' first (by rwa [hsame]) b hb

/-- What is read next has numbers of its own. -/
theorem bind (hp : Numbers [] ids p) (hf : ∀ a, Numbers (before ++ ids a) ids' (f a)) :
    Numbers before ids' (p >>= f) := by
  constructor
  · intro c
    have hfirst := hp.le c
    rw [bind_apply]
    rcases hresult : p c with ⟨_ | a, c'⟩ <;> rw [hresult] at hfirst
    · exact hfirst
    · exact Nat.le_trans hfirst ((hf a).le c')
  · intro c first hbefore b hb
    have hown := hp.kept c c.lastId (.nil (Nat.le_refl _))
    rw [bind_apply] at hb ⊢
    rcases hresult : p c with ⟨_ | a, c'⟩ <;> rw [hresult] at hown hb
    · exact absurd hb (by simp)
    · exact (hf a).kept c' first (hbefore.append (hown a rfl)) b hb

theorem freshId : Numbers [] (fun id => [id]) freshId := by
  refine ⟨fun c => Nat.le_succ _, fun c first hbefore id hid => ?_⟩
  obtain rfl := Option.some.inj hid
  exact hbefore.append (.single c.lastId)

theorem map {g : α → β} (hp : Numbers [] ids p) (hg : ∀ a, ids' (g a) = ids a) :
    Numbers [] ids' (g <$> p) :=
  hp.bind fun a => .pure (hg a)

/-- What is not kept has no numbers. -/
theorem attempt (hp : Numbers [] ids p) :
    Numbers [] (fun a? => a?.elim [] ids) (attempt p) := by
  refine ⟨hp.le, fun c first hbefore a? ha? => ?_⟩
  obtain rfl := Option.some.inj ha?
  cases hresult : (p c).1 with
  | none => exact .nil (Nat.le_trans hbefore.le (hp.le c))
  | some a => exact hp.kept c first hbefore a hresult

theorem recovering (hp : Numbers [] ids p) :
    Numbers [] (fun a? => a?.elim [] ids) (recovering p) := by
  have hlast : ∀ c, (Grammar.recovering p c).2.lastId = (p c).2.lastId := by
    intro c
    unfold Grammar.recovering
    split <;> simp_all
  refine ⟨fun c => Nat.le_trans (hp.le c) (Nat.le_of_eq (hlast c).symm), fun c first hbefore a? ha? => ?_⟩
  rw [hlast]
  unfold Grammar.recovering at ha?
  split at ha?
  · rename_i a c' hresult
    obtain rfl := Option.some.inj ha?
    exact hp.kept c first hbefore a (by rw [hresult]; rfl)
  · obtain rfl := Option.some.inj ha?
    exact .nil (Nat.le_trans hbefore.le (hp.le c))

end Numbers

end Reader

/-! ### Expressions -/

theorem combine_ids (operator : Token) (left right : Expr) :
    (combine operator left right).ids = left.ids ++ right.ids := by
  unfold combine
  split <;> rfl

/-- An assignment to a variable has a number of its own, and the one that the variable was
read with is left out. -/
theorem assignTo_numbers (target : Expr) (equals : Token) (value : Expr) :
    Numbers (target.ids ++ value.ids) Expr.ids (assignTo target equals value) := by
  unfold assignTo
  split
  · exact Numbers.freshId.bind fun id =>
      .pure_of_subperm (List.sublist_append_right _ _ |>.append_right _).subperm
  · exact .pure_of_subperm List.perm_append_comm.subperm
  · exact .quiet (.faultAt _ _) fun _ =>
      .pure_of_subperm (List.sublist_append_left _ _).subperm

mutual

theorem expression_numbers : ∀ (fuel : Nat) (level : Level),
    Numbers [] Expr.ids (expression fuel level)
  | 0, _ => .abandon
  | fuel + 1, level => by
      by_cases hjoined : level.isJoined
      · rw [expression_joined hjoined]
        exact (expression_numbers fuel level.tighter).bind fun left =>
          operations_numbers fuel level left
      cases level with
      | assignment =>
          apply (expression_numbers fuel .conditional).bind
          intro target
          apply Numbers.quiet (.accept _)
          rintro (_ | equals)
          · exact .pure rfl
          · exact (expression_numbers fuel .assignment).bind fun value =>
              assignTo_numbers target equals value
      | conditional =>
          apply (expression_numbers fuel .or).bind
          intro condition
          apply Numbers.quiet (.accept _)
          rintro (_ | question)
          · exact .pure rfl
          · apply (expression_numbers fuel .comma).bind
            intro onTrue
            apply Numbers.quiet (.expect _ _)
            intro colon
            exact (expression_numbers fuel .conditional).bind fun onFalse =>
              .pure (by simp [Expr.ids])
      | unary =>
          apply Numbers.quiet (.accept _)
          rintro (_ | operator)
          · exact expression_numbers fuel .call
          · exact (expression_numbers fuel .unary).bind fun operand => .pure rfl
      | call =>
          exact (expression_numbers fuel .primary).bind fun callee => suffixes_numbers fuel callee
      | primary => exact primary_numbers fuel
      | _ => exact absurd rfl hjoined

theorem operations_numbers : ∀ (fuel : Nat) (level : Level) (left : Expr),
    Numbers left.ids Expr.ids (operations fuel level left)
  | 0, _, _ => .abandon
  | fuel + 1, level, left => by
      apply Numbers.quiet (.accept _)
      rintro (_ | operator)
      · exact .pure rfl
      · apply (expression_numbers fuel level.tighter).bind
        intro right
        rw [← combine_ids operator]
        exact operations_numbers fuel level (combine operator left right)

theorem suffixes_numbers : ∀ (fuel : Nat) (callee : Expr),
    Numbers callee.ids Expr.ids (suffixes fuel callee)
  | 0, _ => .abandon
  | fuel + 1, callee => by
      apply Numbers.quiet (.accept _)
      rintro (_ | token)
      · exact .pure rfl
      dsimp only
      split
      · apply (arguments_numbers fuel).bind
        intro arguments
        exact .quiet (.expect _ _) fun paren =>
          suffixes_numbers fuel (.call callee paren arguments)
      · exact .quiet (.expect _ _) fun property => suffixes_numbers fuel (.get callee property)

theorem arguments_numbers : ∀ fuel : Nat, Numbers [] Expr.idsAll (arguments fuel)
  | 0 => .abandon
  | fuel + 1 => by
      apply Numbers.quiet .nextKind
      intro kind
      split
      · exact .pure rfl
      · exact argumentsFrom_numbers fuel 0

theorem argumentsFrom_numbers : ∀ fuel count : Nat,
    Numbers [] Expr.idsAll (argumentsFrom fuel count)
  | 0, _ => .abandon
  | fuel + 1, count => by
      rw [argumentsFrom_succ]
      apply Numbers.quiet (.checkCount _ _)
      intro _
      apply (expression_numbers fuel .assignment).bind
      intro argument
      apply Numbers.quiet (.accept _)
      rintro (_ | comma)
      · exact .pure (by simp [Expr.idsAll])
      · exact (argumentsFrom_numbers fuel (count + 1)).bind fun others => .pure rfl

theorem primary_numbers : ∀ fuel : Nat, Numbers [] Expr.ids (primary fuel)
  | 0 => .abandon
  | fuel + 1 => by
      rw [primary_succ]
      apply Numbers.quiet (.accept _)
      rintro (_ | token)
      · exact noOperand_numbers fuel
      dsimp only
      unfold primaryAt
      split
      · exact .pure rfl
      · exact .pure rfl
      · exact .pure rfl
      · exact Numbers.freshId.bind fun id => .pure rfl
      · exact Numbers.freshId.bind fun id => .pure rfl
      · exact .quiet (.expect _ _) fun _ => .quiet (.expect _ _) fun method =>
          Numbers.freshId.bind fun id => .pure rfl
      · exact (expression_numbers fuel .comma).bind fun inner =>
          .quiet (.expect _ _) fun _ => .pure rfl
      · exact .pure rfl

theorem noOperand_numbers : ∀ fuel : Nat, Numbers [] Expr.ids (noOperand fuel)
  | 0 => .abandon
  | fuel + 1 => by
      apply Numbers.quiet .nextKind
      intro kind
      cases kind.bind Level.ofOrphan? with
      | none => exact .quiet (.faultHere _) fun _ => .abandon
      | some level =>
          apply Numbers.quiet (.faultHere _)
          intro _
          apply Numbers.quiet (.accept _)
          intro operator
          exact (expression_numbers fuel level).attempt.bind fun _ => .abandon

end

theorem anyExpression_numbers (fuel : Nat) : Numbers [] Expr.ids (anyExpression fuel) :=
  expression_numbers fuel .comma

theorem optionalExpression_numbers (stop : TokenKind) (fuel : Nat) :
    Numbers [] Derives.idsOf (optionalExpression stop fuel) := by
  apply Numbers.quiet .nextKind
  intro kind
  split
  · exact .pure rfl
  · exact (anyExpression_numbers fuel).map fun _ => rfl

theorem optionalInitializer_numbers (fuel : Nat) :
    Numbers [] Derives.idsOf (optionalInitializer fuel) := by
  apply Numbers.quiet (.accept _)
  rintro (_ | equals)
  · exact .pure rfl
  · exact (anyExpression_numbers fuel).map fun _ => rfl

/-! ### Statements and declarations -/

theorem var_ids (name : Token) (initializer : Option Expr) :
    (Stmt.var name initializer).ids = Derives.idsOf initializer := by
  cases initializer <;> rfl

theorem returnWith_ids (keyword : Token) (value : Option Expr) :
    (Stmt.returnWith keyword value).ids = Derives.idsOf value := by
  cases value <;> rfl

theorem idsAll_append (body others : List Stmt) :
    Stmt.idsAll (body ++ others) = Stmt.idsAll body ++ Stmt.idsAll others := by
  induction body with
  | nil => rfl
  | cons s rest ih => simp [Stmt.idsAll, ih]

theorem variableDeclaration_numbers (fuel : Nat) :
    Numbers [] Stmt.ids (variableDeclaration fuel) := by
  rw [variableDeclaration_eq]
  apply Numbers.quiet (.expect _ _)
  intro name
  apply (optionalInitializer_numbers fuel).bind
  intro initializer
  exact .quiet (.expect _ _) fun _ => .pure (var_ids name initializer)

theorem expressionStatement_numbers (fuel : Nat) :
    Numbers [] Stmt.ids (expressionStatement fuel) :=
  (anyExpression_numbers fuel).bind fun _ => .quiet (.expect _ _) fun _ => .pure rfl

theorem forInitializer_numbers (fuel : Nat) :
    Numbers [] (fun s? : Option Stmt => Stmt.idsAll s?.toList) (forInitializer fuel) := by
  apply Numbers.quiet (.accept _)
  rintro (_ | token)
  · exact (expressionStatement_numbers fuel).map fun _ => by simp [Stmt.idsAll]
  dsimp only
  split
  · exact .pure rfl
  · exact (variableDeclaration_numbers fuel).map fun _ => by simp [Stmt.idsAll]

theorem optionalSuperclass_numbers :
    Numbers [] (fun above : Option Occurrence => (above.map Occurrence.id).toList)
      optionalSuperclass := by
  apply Numbers.quiet (.accept _)
  rintro (_ | less)
  · exact .pure rfl
  · exact .quiet (.expect _ _) fun superName => Numbers.freshId.bind fun id => .pure rfl

theorem returnStatement_numbers (keyword : Token) (fuel : Nat) :
    Numbers [] Stmt.ids (returnStatement keyword fuel) :=
  (optionalExpression_numbers .semicolon fuel).bind fun value =>
    .quiet (.expect _ _) fun _ => .pure (returnWith_ids keyword value)

theorem parenthesized_numbers (opening closing : String) (fuel : Nat) :
    Numbers [] Expr.ids (parenthesized opening closing fuel) :=
  .quiet (.expect _ _) fun _ => (anyExpression_numbers fuel).bind fun _ =>
    .quiet (.expect _ _) fun _ => .pure rfl

theorem paramsFrom_quiet : ∀ fuel count : Nat, Quiet (paramsFrom fuel count)
  | 0, _ => .abandon
  | fuel + 1, count => by
      rw [paramsFrom_succ]
      refine (Quiet.checkCount _ _).bind fun _ => (Quiet.expect _ _).bind fun param =>
        (Quiet.accept _).bind ?_
      rintro (_ | comma)
      · exact .pure _
      · exact (paramsFrom_quiet fuel (count + 1)).bind fun _ => .pure _

theorem params_quiet (fuel : Nat) : Quiet (params fuel) := by
  refine Quiet.nextKind.bind fun kind => ?_
  split
  · exact .pure _
  · exact paramsFrom_quiet fuel 0

mutual

theorem declaration_numbers : ∀ fuel : Nat,
    Numbers [] (fun s? : Option Stmt => Stmt.idsAll s?.toList) (declaration fuel)
  | 0 => .abandon
  | fuel + 1 => by
      rw [declaration_eq (Nat.succ_pos fuel)]
      have hkept : Numbers [] Stmt.ids (keptDeclaration fuel) := by
        apply Numbers.quiet (.accept _)
        rintro (_ | token)
        · exact statement_numbers fuel
        dsimp only
        unfold declarationAt
        split
        · exact classDeclaration_numbers fuel
        · exact (function_numbers fuel "function").map fun _ => rfl
        · exact variableDeclaration_numbers fuel
      have hids : (fun s? : Option Stmt => s?.elim [] Stmt.ids)
          = fun s? => Stmt.idsAll s?.toList := by
        funext s?
        cases s? <;> simp [Stmt.idsAll]
      exact hids ▸ hkept.recovering

theorem classDeclaration_numbers : ∀ fuel : Nat, Numbers [] Stmt.ids (classDeclaration fuel)
  | 0 => .abandon
  | fuel + 1 => by
      rw [classDeclaration_succ]
      apply Numbers.quiet (.expect _ _)
      intro name
      apply optionalSuperclass_numbers.bind
      intro superclass
      apply Numbers.quiet (.expect _ _)
      intro _
      apply (methods_numbers fuel).bind
      intro declared
      exact .quiet (.expect _ _) fun _ => .pure rfl

theorem methods_numbers : ∀ fuel : Nat, Numbers [] FunctionDecl.idsAll (methods fuel)
  | 0 => .abandon
  | fuel + 1 => by
      apply Numbers.quiet .nextKind
      intro kind
      split
      · exact .pure rfl
      · exact .pure rfl
      · apply (function_numbers fuel "method").bind
        intro method
        exact (methods_numbers fuel).bind fun others => .pure rfl

theorem function_numbers : ∀ (fuel : Nat) (role : String),
    Numbers [] FunctionDecl.ids (function fuel role)
  | 0, _ => .abandon
  | fuel + 1, role => by
      apply Numbers.quiet (.expect _ _)
      intro name
      apply Numbers.quiet (.expect _ _)
      intro _
      apply Numbers.quiet (params_quiet fuel)
      intro params
      apply Numbers.quiet (.expect _ _)
      intro _
      apply Numbers.quiet (.expect _ _)
      intro _
      exact (block_numbers fuel).bind fun body => .pure rfl

theorem block_numbers : ∀ fuel : Nat, Numbers [] Stmt.idsAll (block fuel)
  | 0 => .abandon
  | fuel + 1 =>
      (declarations_numbers fuel).bind fun _ => .quiet (.expect _ _) fun _ => .pure rfl

theorem declarations_numbers : ∀ fuel : Nat, Numbers [] Stmt.idsAll (declarations fuel)
  | 0 => .abandon
  | fuel + 1 => by
      apply Numbers.quiet .nextKind
      intro kind
      split
      · exact .pure rfl
      · exact .pure rfl
      · apply (declaration_numbers fuel).bind
        intro first
        exact (declarations_numbers fuel).bind fun others => .pure (idsAll_append _ _)

theorem statement_numbers : ∀ fuel : Nat, Numbers [] Stmt.ids (statement fuel)
  | 0 => .abandon
  | fuel + 1 => by
      rw [statement_succ]
      apply Numbers.quiet (.accept _)
      rintro (_ | token)
      · exact expressionStatement_numbers fuel
      dsimp only
      unfold statementAt
      split
      · exact .quiet (.expect _ _) fun _ => .pure rfl
      · exact forClauses_numbers fuel
      · apply (parenthesized_numbers _ _ fuel).bind
        intro condition
        apply (statement_numbers fuel).bind
        intro onTrue
        apply Numbers.quiet (.accept _)
        rintro (_ | otherwise)
        · exact .pure rfl
        · exact (statement_numbers fuel).bind fun onFalse => .pure (by simp [Stmt.ids])
      · exact (anyExpression_numbers fuel).bind fun value =>
          .quiet (.expect _ _) fun _ => .pure rfl
      · exact returnStatement_numbers token fuel
      · exact (parenthesized_numbers _ _ fuel).bind fun condition =>
          (statement_numbers fuel).bind fun body => .pure rfl
      · exact (block_numbers fuel).map fun body => rfl

theorem forClauses_numbers : ∀ fuel : Nat, Numbers [] Stmt.ids (forClauses fuel)
  | 0 => .abandon
  | fuel + 1 => by
      rw [forClauses_succ]
      apply Numbers.quiet (.expect _ _)
      intro _
      apply (forInitializer_numbers fuel).bind
      intro initializer
      apply (optionalExpression_numbers _ fuel).bind
      intro condition
      apply Numbers.quiet (.expect _ _)
      intro _
      apply (optionalExpression_numbers _ fuel).bind
      intro increment
      apply Numbers.quiet (.expect _ _)
      intro _
      apply (statement_numbers fuel).bind
      intro body
      -- The increment is read in front of the body and stands behind it in the tree.
      refine .pure_of_subperm (List.Perm.subperm ?_)
      rw [Derives.forLoop_eq, Derives.forTree_ids]
      simpa [List.perm_append_left_iff] using List.perm_append_comm

end

/-! ### Whole programs -/

theorem toEnd_numbered (fuel : Nat) (c : Cursor) :
    Numbered c.lastId (Stmt.idsAll (toEnd fuel c).1) (toEnd fuel c).2.lastId := by
  induction fuel generalizing c with
  | zero => exact .nil (Nat.le_refl _)
  | succ fuel ih =>
      cases hrest : c.rest with
      | nil =>
          rw [toEnd_of_nil hrest]
          exact .nil (Nat.le_refl _)
      | cons token rest =>
          rw [toEnd_of_declaration hrest rfl, idsAll_append]
          have hfirst := declaration_numbers fuel
          refine Numbered.append ?_ (ih _)
          cases hresult : (declaration fuel c).1 with
          | none => exact .nil (hfirst.le c)
          | some s? => exact hfirst.kept c c.lastId (.nil (Nat.le_refl _)) s? hresult

/-- **Occurrences are numbered apart**, above the counter in front of the source and up to
the counter behind it, however malformed the source is. -/
theorem parse_numbered (tokens : List Token) (endLine lastId : Nat) :
    Numbered lastId (Stmt.idsAll (parse tokens endLine lastId).program)
      (parse tokens endLine lastId).lastId :=
  toEnd_numbered (fuelFor tokens) ⟨tokens, endLine, lastId, []⟩

end Lox.Grammar
