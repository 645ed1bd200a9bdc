/-
What reading can come to.

Whatever the counter says and whatever the tokens are, a reader is put together from a few
small steps.  `Built` follows how: it says which kinds of tokens a reader may take, and what
holds of everything that it keeps, if some property holds of every token that it may see.  It
is proved of every reader of the grammar once, and what it means for a reading is read off the
steps: here, that each fault points at a token that was there or at the end, and that the trees
that are kept are made of such tokens (`Built.comesTo`), also where there are faults.
-/
import Lox.Proofs.Grammar.Progress
import Lox.Proofs.Grammar.Words

namespace Lox

/-- A fault at a token with the property, or at the end of the source. -/
def Fault.PointsAt (P : Token → Prop) (endLine : Nat) (fault : Fault) : Prop :=
  (∃ token, P token ∧ fault.line = token.line ∧ fault.place = .lexeme token.lexeme) ∨
    fault.line = endLine ∧ fault.place = .atEnd

theorem Fault.pointsAt_atToken {P : Token → Prop} {token : Token} (h : P token)
    (cause : Fault.Cause) (endLine : Nat) : (Fault.atToken token cause).PointsAt P endLine :=
  .inl ⟨token, h, rfl, rfl⟩

theorem Fault.pointsAt_atEnd {P : Token → Prop} (endLine : Nat) (cause : Fault.Cause) :
    (Fault.atEnd endLine cause).PointsAt P endLine :=
  .inr ⟨rfl, rfl⟩

namespace Grammar

namespace Reader

/-- How a reader is put together, if it takes only tokens of some kinds: whatever it keeps has a
property, if every token has the property `P`.  Only what takes any token may be recovered
from. -/
inductive Built (K : TokenKind → Prop) (P : Token → Prop) :
    {α : Type} → (α → Prop) → Reader α → Prop
  | pure {α : Type} {Q : α → Prop} {a : α} (h : Q a) : Built K P Q (Pure.pure a)
  | bind {α β : Type} {Q : α → Prop} {R : β → Prop} {p : Reader α} {f : α → Reader β}
      (hp : Built K P Q p) (hf : ∀ a, Q a → Built K P R (f a)) : Built K P R (p >>= f)
  | weaken {α : Type} {Q R : α → Prop} {p : Reader α} (hp : Built K P Q p)
      (h : ∀ a, Q a → R a) : Built K P R p
  | abandon {α : Type} {Q : α → Prop} : Built K P Q (abandon : Reader α)
  | nextKind : Built K P (fun _ => True) nextKind
  | accept {kinds : List TokenKind} (h : ∀ kind ∈ kinds, K kind) :
      Built K P (fun token? => ∀ token ∈ token?, P token ∧ token.kind ∈ kinds) (accept kinds)
  | faultAt {token : Token} (h : P token) (cause : Fault.Cause) :
      Built K P (fun _ => True) (faultAt token cause)
  | faultHere (cause : Fault.Cause) : Built K P (fun _ => True) (faultHere cause)
  | freshId : Built K P (fun _ => True) freshId
  | attempt {α : Type} {Q : α → Prop} {p : Reader α} (hp : Built K P Q p) :
      Built K P (fun result => ∀ a ∈ result, Q a) (attempt p)
  | recovering {α : Type} {Q : α → Prop} {p : Reader α} (hK : ∀ kind, K kind)
      (hp : Built K P Q p) : Built K P (fun result => ∀ a ∈ result, Q a) (recovering p)

/-- What a reading has come to: the tokens left are some of those that there were, what is kept
has the property, and the new faults point at these tokens or at the end. -/
structure ComesTo (P : Token → Prop) {α : Type} (Q : α → Prop) (c : Cursor)
    (outcome : Option α × Cursor) : Prop where
  rest : outcome.2.rest <:+ c.rest
  endLine : outcome.2.endLine = c.endLine
  kept : ∀ a ∈ outcome.1, Q a
  faults : ∃ found, outcome.2.faults = c.faults ++ found ∧
    ∀ fault ∈ found, fault.PointsAt P c.endLine

namespace Built

variable {K : TokenKind → Prop} {P : Token → Prop} {α β : Type} {Q : α → Prop} {R : β → Prop}
  {p : Reader α}

/-- What comes out of a step of which nothing is asked does not matter. -/
theorem andThen {f : α → Reader β} (hp : Built K P Q p) (hf : ∀ a, Built K P R (f a)) :
    Built K P R (p >>= f) :=
  hp.bind fun a _ => hf a

theorem map {g : α → β} (hp : Built K P Q p) (hg : ∀ a, Q a → R (g a)) :
    Built K P R (g <$> p) :=
  hp.bind fun a ha => .pure (hg a ha)

theorem expect {kind : TokenKind} (h : K kind) (what : String) :
    Built K P (fun token => P token ∧ token.kind = kind) (expect kind what) := by
  have haccept : Built K P (fun token? => ∀ token ∈ token?, P token ∧ token.kind ∈ [kind])
      (Reader.accept [kind]) := .accept (by simpa using h)
  refine haccept.bind fun token? htoken => ?_
  cases token? with
  | none => exact (Built.faultHere _).andThen fun _ => .abandon
  | some token =>
      obtain ⟨hP, hkind⟩ := htoken token rfl
      exact .pure ⟨hP, List.mem_singleton.mp hkind⟩

end Built

/-! ### What a reading comes to -/

namespace ComesTo

variable {P : Token → Prop} {α β : Type} {Q : α → Prop} {R : β → Prop} {c c' : Cursor}

/-- Without a new fault. -/
theorem of_same {result : Option α} (hrest : c'.rest <:+ c.rest) (hline : c'.endLine = c.endLine)
    (hfaults : c'.faults = c.faults) (hkept : ∀ a ∈ result, Q a) : ComesTo P Q c (result, c') :=
  ⟨hrest, hline, hkept, [], by rw [hfaults, List.append_nil], by simp⟩

/-- With one new fault. -/
theorem of_fault {result : Option α} {fault : Fault} (hfault : fault.PointsAt P c.endLine)
    (hkept : ∀ a ∈ result, Q a) :
    ComesTo P Q c (result, { c with faults := c.faults ++ [fault] }) :=
  ⟨List.suffix_refl _, rfl, hkept, [fault], rfl, List.forall_mem_singleton.mpr hfault⟩

/-- One reading goes on where another has come to. -/
theorem trans {result : Option α} {outcome : Option β × Cursor} (h : ComesTo P Q c (result, c'))
    (h' : ComesTo P R c' outcome) : ComesTo P R c outcome := by
  obtain ⟨found, hfaults, hfound⟩ := h.faults
  obtain ⟨found', hfaults', hfound'⟩ := h'.faults
  refine ⟨h'.rest.trans h.rest, h'.endLine.trans h.endLine, h'.kept, found ++ found', ?_, ?_⟩
  · rw [hfaults', ← List.append_assoc, ← hfaults]
  · have hline : c'.endLine = c.endLine := h.endLine
    rw [hline] at hfound'
    exact List.forall_mem_append.mpr ⟨hfound, hfound'⟩

/-- What is kept may be something else. -/
theorem change {result : Option α} {result' : Option β} (h : ComesTo P Q c (result, c'))
    (hkept : ∀ b ∈ result', R b) : ComesTo P R c (result', c') :=
  ⟨h.rest, h.endLine, hkept, h.faults⟩

end ComesTo

/-- **Faults point at tokens that were there, and what is kept is made of them.** -/
theorem Built.comesTo {K : TokenKind → Prop} {P : Token → Prop} {α : Type} {Q : α → Prop}
    {p : Reader α} (h : Built K P Q p) {c : Cursor} (hc : ∀ token ∈ c.rest, P token) :
    ComesTo P Q c (p c) := by
  induction h generalizing c with
  | pure h => exact .of_same (List.suffix_refl _) rfl rfl (by simpa using h)
  | @bind _ _ _ _ p f _ _ ihp ihf =>
      have hfirst := ihp hc
      rw [bind_apply]
      generalize p c = outcome at hfirst ⊢
      rcases outcome with ⟨_ | a, c'⟩
      · exact hfirst.change (by simp)
      · have hc' : ∀ token ∈ c'.rest, P token := fun token ht => hc token (hfirst.rest.subset ht)
        exact hfirst.trans (ihf a (hfirst.kept a rfl) hc')
  | weaken _ h ih =>
      have hp := ih hc
      exact ⟨hp.rest, hp.endLine, fun a ha => h a (hp.kept a ha), hp.faults⟩
  | abandon => exact .of_same (List.suffix_refl _) rfl rfl (by simp)
  | nextKind => exact .of_same (List.suffix_refl _) rfl rfl (by simp)
  | @accept kinds _ =>
      rcases accept_cases kinds c with ⟨heq, -⟩ | ⟨token, rest, hrest, hmem, heq⟩
      · rw [heq]
        exact .of_same (List.suffix_refl _) rfl rfl (by simp)
      · have hP : P token := hc token (hrest ▸ List.mem_cons_self)
        rw [heq]
        refine .of_same ?_ rfl rfl (by simpa using ⟨hP, hmem⟩)
        rw [hrest]
        exact List.suffix_cons token rest
  | @faultAt token h cause => exact .of_fault (Fault.pointsAt_atToken h cause _) (by simp)
  | faultHere cause =>
      refine .of_fault ?_ (by simp)
      cases hrest : c.rest with
      | nil => exact Fault.pointsAt_atEnd _ cause
      | cons token rest =>
          exact Fault.pointsAt_atToken (hc token (hrest ▸ List.mem_cons_self)) cause _
  | freshId => exact .of_same (List.suffix_refl _) rfl rfl (by simp)
  | attempt _ ih => exact (ih hc).change (by simpa using (ih hc).kept)
  | @recovering _ _ p _ _ ih =>
      have hp := ih hc
      unfold Grammar.recovering
      generalize p c = outcome at hp ⊢
      rcases outcome with ⟨_ | a, c'⟩
      · refine hp.trans (.of_same (recover_suffix c'.rest) rfl rfl (by simp))
      · exact hp.change (by simpa using hp.kept)

end Reader

open Reader

/-! ### Trees from their parts -/

section Readers

variable {v : Vocabulary} {K : TokenKind → Prop} {P : Token → Prop}
  (hv : ∀ token, P token → Derives.Allows v [token])

include hv in
/-- A token may do what its kind is for. -/
theorem role_of_allowed {token : Token} {role : Role} (h : P token)
    (hkind : token.kind ∈ role.kinds) : v role token :=
  (hv token h).role rfl hkind

theorem Level.role_of_operator (level : Level) : ∀ kind ∈ level.operators,
    kind ∈ Role.operator.kinds ∨ kind ∈ Role.connective.kinds ∨ kind = .bangEqual := by
  cases level <;> decide

include hv in
theorem combine_worded {level : Level} {operator : Token} {left right : Expr}
    (hoperator : P operator ∧ operator.kind ∈ level.operators) (hleft : left.Worded v)
    (hright : right.Worded v) : (combine operator left right).Worded v := by
  obtain ⟨hP, hkind⟩ := hoperator
  unfold combine
  split
  · rename_i hand
    exact .logical (role_of_allowed hv hP (by rw [hand]; decide)) hleft hright
  · rename_i hor
    exact .logical (role_of_allowed hv hP (by rw [hor]; decide)) hleft hright
  · rename_i hunequal
    obtain ⟨hsign, hequal⟩ := (hv operator hP).unequal operator (by simp) hunequal
    exact .unary hsign (.binary hequal hleft hright)
  · rename_i hand hor hunequal
    refine .binary (role_of_allowed hv hP ?_) hleft hright
    rcases level.role_of_operator _ hkind with h | h | h
    · exact h
    · simp only [Role.kinds, List.mem_cons, List.not_mem_nil, or_false] at h
      exact (h.elim hand hor).elim
    · exact (hunequal h).elim

theorem assignTo_built {target value : Expr} {equals : Token} (htarget : target.Worded v)
    (hequals : P equals) (hvalue : value.Worded v) :
    Built K P (Expr.Worded v) (assignTo target equals value) := by
  unfold assignTo
  cases htarget with
  | use hname => exact Built.freshId.andThen fun id => .pure (.assign hname hvalue)
  | get hobject hname => exact .pure (.set hobject hname hvalue)
  | _ => exact (Built.faultAt hequals _).andThen fun _ => .pure (by constructor <;> assumption)

theorem checkCount_built (count : Nat) (cause : Fault.Cause) :
    Built K P (fun _ => True) (checkCount count cause) := by
  unfold checkCount
  split
  · exact .faultHere cause
  · exact .pure trivial

/-! ### Expressions -/

/-- The kinds of the tokens in expressions. -/
def expressionKinds : List TokenKind :=
  [.comma, .equal, .question, .colon, .kwOr, .kwAnd, .bangEqual, .equalEqual, .greater,
    .greaterEqual, .less, .lessEqual, .minus, .plus, .slash, .star, .bang, .leftParen, .rightParen,
    .dot, .identifier, .kwFalse, .kwTrue, .kwNil, .string, .number, .kwThis, .kwSuper]

theorem Level.operators_subset_expressionKinds (level : Level) :
    level.operators ⊆ expressionKinds := by
  cases level <;> decide

section Expressions

-- In a family of readers that call each other not every one uses every assumption itself.
set_option linter.unusedSectionVars false

variable (hK : ∀ kind ∈ expressionKinds, K kind)

include hK

theorem accept_built {kinds : List TokenKind} (h : kinds ⊆ expressionKinds) :
    Built K P (fun token? => ∀ token ∈ token?, P token ∧ token.kind ∈ kinds) (accept kinds) :=
  .accept fun kind hkind => hK kind (h hkind)

theorem expect_built {kind : TokenKind} (h : kind ∈ expressionKinds) (what : String) :
    Built K P (fun token => P token ∧ token.kind = kind) (expect kind what) :=
  .expect (hK kind h) what

include hv

mutual

theorem expression_built : ∀ (fuel : Nat) (level : Level),
    Built K P (Expr.Worded v) (expression fuel level)
  | 0, _ => .abandon
  | fuel + 1, level => by
      by_cases hjoined : level.isJoined
      · rw [expression_joined hjoined]
        exact (expression_built fuel level.tighter).bind fun left hleft =>
          operations_built fuel level hleft
      cases level with
      | assignment =>
          apply (expression_built fuel .conditional).bind
          intro target htarget
          apply (accept_built hK (by decide)).bind
          rintro (_ | equals) hequals
          · exact .pure htarget
          · exact (expression_built fuel .assignment).bind fun value hvalue =>
              assignTo_built htarget (hequals equals rfl).1 hvalue
      | conditional =>
          apply (expression_built fuel .or).bind
          intro condition hcondition
          apply (accept_built hK (by decide)).bind
          rintro (_ | question) _
          · exact .pure hcondition
          · apply (expression_built fuel .comma).bind
            intro onTrue hTrue
            apply (expect_built hK (by decide) _).andThen
            intro colon
            exact (expression_built fuel .conditional).bind fun onFalse hFalse =>
              .pure (.conditional hcondition hTrue hFalse)
      | unary =>
          apply (accept_built hK (by decide)).bind
          rintro (_ | operator) hoperator
          · exact expression_built fuel .call
          · have hsign : v .sign operator :=
              role_of_allowed hv (hoperator operator rfl).1 (hoperator operator rfl).2
            exact (expression_built fuel .unary).bind fun operand h => .pure (.unary hsign h)
      | call =>
          exact (expression_built fuel .primary).bind fun callee h => suffixes_built fuel h
      | primary => exact primary_built fuel
      | _ => exact absurd rfl hjoined

theorem operations_built : ∀ (fuel : Nat) (level : Level) {left : Expr}, left.Worded v →
    Built K P (Expr.Worded v) (operations fuel level left)
  | 0, _, _, _ => .abandon
  | fuel + 1, level, left, hleft => by
      apply (accept_built hK level.operators_subset_expressionKinds).bind
      rintro (_ | operator) hoperator
      · exact .pure hleft
      · apply (expression_built fuel level.tighter).bind
        intro right hright
        exact operations_built fuel level (combine_worded hv (hoperator operator rfl) hleft hright)

theorem suffixes_built : ∀ (fuel : Nat) {callee : Expr}, callee.Worded v →
    Built K P (Expr.Worded v) (suffixes fuel callee)
  | 0, _, _ => .abandon
  | fuel + 1, callee, hcallee => by
      apply (accept_built hK (by decide)).bind
      rintro (_ | token) htoken
      · exact .pure hcallee
      dsimp only
      split
      · apply (arguments_built fuel).bind
        intro arguments harguments
        apply (expect_built hK (by decide) _).bind
        rintro paren ⟨hparen, hkind⟩
        have hclosing : v .closing paren := role_of_allowed hv hparen (by rw [hkind]; decide)
        exact suffixes_built fuel (.call hcallee hclosing harguments)
      · apply (expect_built hK (by decide) _).bind
        rintro property ⟨hproperty, hkind⟩
        have hname : v .name property := role_of_allowed hv hproperty (by rw [hkind]; decide)
        exact suffixes_built fuel (.get hcallee hname)

theorem arguments_built : ∀ fuel : Nat,
    Built K P (fun es : List Expr => ∀ e ∈ es, e.Worded v) (arguments fuel)
  | 0 => .abandon
  | fuel + 1 => by
      apply Built.nextKind.andThen
      intro kind
      split
      · exact .pure (by simp)
      · exact argumentsFrom_built fuel 0

theorem argumentsFrom_built : ∀ fuel count : Nat,
    Built K P (fun es : List Expr => ∀ e ∈ es, e.Worded v) (argumentsFrom fuel count)
  | 0, _ => .abandon
  | fuel + 1, count => by
      rw [argumentsFrom_succ]
      apply (checkCount_built _ _).andThen
      intro _
      apply (expression_built fuel .assignment).bind
      intro argument hargument
      apply (accept_built hK (by decide)).bind
      rintro (_ | comma) _
      · exact .pure (List.forall_mem_singleton.mpr hargument)
      · exact (argumentsFrom_built fuel (count + 1)).bind fun others hothers =>
          .pure (List.forall_mem_cons.mpr ⟨hargument, hothers⟩)

theorem primary_built : ∀ fuel : Nat, Built K P (Expr.Worded v) (primary fuel)
  | 0 => .abandon
  | fuel + 1 => by
      rw [primary_succ]
      apply (accept_built hK (by decide)).bind
      rintro (_ | token) htoken
      · exact noOperand_built fuel
      have hP : P token := (htoken token rfl).1
      dsimp only
      unfold primaryAt
      split
      · exact .pure .literal
      · exact .pure .literal
      · exact .pure .literal
      · rename_i hkind
        exact Built.freshId.andThen fun id =>
          .pure (.use (role_of_allowed hv hP (by rw [hkind]; decide)))
      · rename_i hkind
        exact Built.freshId.andThen fun id =>
          .pure (.this (role_of_allowed hv hP (by rw [hkind]; decide)))
      · rename_i hkind
        apply (expect_built hK (by decide) _).andThen
        intro dot
        apply (expect_built hK (by decide) _).bind
        rintro method ⟨hmethod, hname⟩
        exact Built.freshId.andThen fun id =>
          .pure (.super (role_of_allowed hv hP (by rw [hkind]; decide))
            (role_of_allowed hv hmethod (by rw [hname]; decide)))
      · apply (expression_built fuel .comma).bind
        intro inner hinner
        exact (expect_built hK (by decide) _).andThen fun _ => .pure (.group hinner)
      · exact .pure .literal

theorem noOperand_built : ∀ fuel : Nat, Built K P (Expr.Worded v) (noOperand fuel)
  | 0 => .abandon
  | fuel + 1 => by
      apply Built.nextKind.andThen
      intro kind
      cases kind.bind Level.ofOrphan? with
      | none => exact (Built.faultHere _).andThen fun _ => .abandon
      | some level =>
          apply (Built.faultHere _).andThen
          intro _
          apply (accept_built hK level.operators_subset_expressionKinds).andThen
          intro operator
          exact (expression_built fuel level).attempt.andThen fun _ => .abandon

end

theorem anyExpression_built (fuel : Nat) : Built K P (Expr.Worded v) (anyExpression fuel) :=
  expression_built hv hK fuel .comma

theorem optionalExpression_built (stop : TokenKind) (fuel : Nat) :
    Built K P (fun e? : Option Expr => ∀ e ∈ e?, e.Worded v) (optionalExpression stop fuel) := by
  apply Built.nextKind.andThen
  intro kind
  split
  · exact .pure (by simp)
  · exact (anyExpression_built hv hK fuel).map fun e he => by simpa using he

theorem optionalInitializer_built (fuel : Nat) :
    Built K P (fun e? : Option Expr => ∀ e ∈ e?, e.Worded v) (optionalInitializer fuel) := by
  apply (accept_built hK (by decide)).bind
  rintro (_ | equals) _
  · exact .pure (by simp)
  · exact (anyExpression_built hv hK fuel).map fun e he => by simpa using he

end Expressions

/-! ### Statements and declarations -/

section Statements

set_option linter.unusedSectionVars false

variable (hK : ∀ kind, K kind)

include hv hK

theorem variableDeclaration_built (fuel : Nat) :
    Built K P (Stmt.Worded v) (variableDeclaration fuel) := by
  rw [variableDeclaration_eq]
  apply (Built.expect (hK _) _).bind
  rintro name ⟨hP, hkind⟩
  apply (optionalInitializer_built hv (fun kind _ => hK kind) fuel).bind
  intro initializer hinitializer
  exact (Built.expect (hK _) _).andThen fun _ =>
    .pure (.var (role_of_allowed hv hP (by rw [hkind]; decide)) hinitializer)

theorem expressionStatement_built (fuel : Nat) :
    Built K P (fun s => s.Worded v ∧ s.isDeclaration = false) (expressionStatement fuel) := by
  apply (anyExpression_built hv (fun kind _ => hK kind) fuel).bind
  intro value hvalue
  exact (Built.expect (hK _) _).andThen fun _ => .pure ⟨.expression hvalue, rfl⟩

theorem forInitializer_built (fuel : Nat) :
    Built K P (fun s? : Option Stmt => ∀ s ∈ s?, s.Worded v) (forInitializer fuel) := by
  apply (Built.accept fun kind _ => hK kind).bind
  rintro (_ | token) _
  · exact (expressionStatement_built hv hK fuel).map fun s hs => by simpa using hs.1
  dsimp only
  split
  · exact .pure (by simp)
  · exact (variableDeclaration_built hv hK fuel).map fun s hs => by simpa using hs

theorem optionalSuperclass_built :
    Built K P (fun above : Option Occurrence => ∀ occurrence ∈ above, v .name occurrence.name)
      optionalSuperclass := by
  apply (Built.accept fun kind _ => hK kind).bind
  rintro (_ | less) _
  · exact .pure (by simp)
  · apply (Built.expect (hK _) _).bind
    rintro superName ⟨hP, hkind⟩
    have hname : v .name superName := role_of_allowed hv hP (by rw [hkind]; decide)
    exact Built.freshId.andThen fun id => .pure (by simpa using hname)

theorem returnStatement_built {keyword : Token} (hkeyword : v .keyword keyword) (fuel : Nat) :
    Built K P (fun s => s.Worded v ∧ s.isDeclaration = false) (returnStatement keyword fuel) := by
  apply (optionalExpression_built hv (fun kind _ => hK kind) .semicolon fuel).bind
  intro value hvalue
  exact (Built.expect (hK _) _).andThen fun _ => .pure ⟨.returnWith hkeyword hvalue, rfl⟩

theorem parenthesized_built (opening closing : String) (fuel : Nat) :
    Built K P (Expr.Worded v) (parenthesized opening closing fuel) := by
  apply (Built.expect (hK _) _).andThen
  intro _
  apply (anyExpression_built hv (fun kind _ => hK kind) fuel).bind
  intro condition hcondition
  exact (Built.expect (hK _) _).andThen fun _ => .pure hcondition

theorem paramsFrom_built : ∀ fuel count : Nat,
    Built K P (fun names : List Token => ∀ name ∈ names, v .name name) (paramsFrom fuel count)
  | 0, _ => .abandon
  | fuel + 1, count => by
      rw [paramsFrom_succ]
      apply (checkCount_built _ _).andThen
      intro _
      apply (Built.expect (hK _) _).bind
      rintro param ⟨hP, hkind⟩
      have hname : v .name param := role_of_allowed hv hP (by rw [hkind]; decide)
      apply (Built.accept fun kind _ => hK kind).bind
      rintro (_ | comma) _
      · exact .pure (List.forall_mem_singleton.mpr hname)
      · exact (paramsFrom_built fuel (count + 1)).bind fun others hothers =>
          .pure (List.forall_mem_cons.mpr ⟨hname, hothers⟩)

theorem params_built (fuel : Nat) :
    Built K P (fun names : List Token => ∀ name ∈ names, v .name name) (params fuel) := by
  apply Built.nextKind.andThen
  intro kind
  split
  · exact .pure (by simp)
  · exact paramsFrom_built hv hK fuel 0

mutual

theorem declaration_built : ∀ fuel : Nat,
    Built K P (fun s? : Option Stmt => ∀ s ∈ s?, s.Worded v) (declaration fuel)
  | 0 => .abandon
  | fuel + 1 => by
      rw [declaration_eq (Nat.succ_pos fuel)]
      apply Built.recovering hK
      apply (Built.accept fun kind _ => hK kind).bind
      rintro (_ | token) _
      · exact (statement_built fuel).weaken fun _ hs => hs.1
      dsimp only
      unfold declarationAt
      split
      · exact classDeclaration_built fuel
      · exact (function_built fuel "function").map fun _ hf => .function hf
      · exact variableDeclaration_built hv hK fuel

theorem classDeclaration_built : ∀ fuel : Nat,
    Built K P (Stmt.Worded v) (classDeclaration fuel)
  | 0 => .abandon
  | fuel + 1 => by
      rw [classDeclaration_succ]
      apply (Built.expect (hK _) _).bind
      rintro name ⟨hP, hkind⟩
      apply (optionalSuperclass_built hv hK).bind
      intro superclass hsuperclass
      apply (Built.expect (hK _) _).andThen
      intro _
      apply (methods_built fuel).bind
      intro declared hdeclared
      exact (Built.expect (hK _) _).andThen fun _ =>
        .pure (.classDecl (role_of_allowed hv hP (by rw [hkind]; decide)) hsuperclass hdeclared)

theorem methods_built : ∀ fuel : Nat,
    Built K P (fun fs : List FunctionDecl => ∀ f ∈ fs, f.Worded v) (methods fuel)
  | 0 => .abandon
  | fuel + 1 => by
      apply Built.nextKind.andThen
      intro kind
      split
      · exact .pure (by simp)
      · exact .pure (by simp)
      · apply (function_built fuel "method").bind
        intro method hmethod
        exact (methods_built fuel).bind fun others hothers =>
          .pure (List.forall_mem_cons.mpr ⟨hmethod, hothers⟩)

theorem function_built : ∀ (fuel : Nat) (role : String),
    Built K P (FunctionDecl.Worded v) (function fuel role)
  | 0, _ => .abandon
  | fuel + 1, role => by
      apply (Built.expect (hK _) _).bind
      rintro name ⟨hP, hkind⟩
      apply (Built.expect (hK _) _).andThen
      intro _
      apply (params_built hv hK fuel).bind
      intro params hparams
      apply (Built.expect (hK _) _).andThen
      intro _
      apply (Built.expect (hK _) _).andThen
      intro _
      exact (block_built fuel).bind fun body hbody =>
        .pure (.mk (role_of_allowed hv hP (by rw [hkind]; decide)) hparams hbody)

theorem block_built : ∀ fuel : Nat,
    Built K P (fun body : List Stmt => ∀ s ∈ body, s.Worded v) (block fuel)
  | 0 => .abandon
  | fuel + 1 => by
      apply (declarations_built fuel).bind
      intro body hbody
      exact (Built.expect (hK _) _).andThen fun _ => .pure hbody

theorem declarations_built : ∀ fuel : Nat,
    Built K P (fun body : List Stmt => ∀ s ∈ body, s.Worded v) (declarations fuel)
  | 0 => .abandon
  | fuel + 1 => by
      apply Built.nextKind.andThen
      intro kind
      split
      · exact .pure (by simp)
      · exact .pure (by simp)
      · apply (declaration_built fuel).bind
        intro first hfirst
        exact (declarations_built fuel).bind fun others hothers =>
          .pure (List.forall_mem_append.mpr ⟨by simpa using hfirst, hothers⟩)

theorem statement_built : ∀ fuel : Nat,
    Built K P (fun s => s.Worded v ∧ s.isDeclaration = false) (statement fuel)
  | 0 => .abandon
  | fuel + 1 => by
      rw [statement_succ]
      apply (Built.accept fun kind _ => hK kind).bind
      rintro (_ | token) htoken
      · exact expressionStatement_built hv hK fuel
      have hP : P token := (htoken token rfl).1
      dsimp only
      unfold statementAt
      split
      · rename_i hkind
        exact (Built.expect (hK _) _).andThen fun _ =>
          .pure ⟨.breakLoop (role_of_allowed hv hP (by rw [hkind]; decide)), rfl⟩
      · exact forClauses_built fuel
      · apply (parenthesized_built hv hK _ _ fuel).bind
        intro condition hcondition
        apply (statement_built fuel).bind
        intro onTrue hTrue
        apply (Built.accept fun kind _ => hK kind).andThen
        rintro (_ | otherwise)
        · exact .pure ⟨.ifElse hcondition hTrue.1 hTrue.2 (by simp) (by simp), rfl⟩
        · exact (statement_built fuel).bind fun onFalse hFalse =>
            .pure ⟨.ifElse hcondition hTrue.1 hTrue.2 (by simpa using hFalse.1)
              (by simpa using hFalse.2), rfl⟩
      · rename_i hkind
        apply (anyExpression_built hv (fun kind _ => hK kind) fuel).bind
        intro value hvalue
        exact (Built.expect (hK _) _).andThen fun _ =>
          .pure ⟨.print (role_of_allowed hv hP (by rw [hkind]; decide)) hvalue, rfl⟩
      · rename_i hkind
        exact returnStatement_built hv hK (role_of_allowed hv hP (by rw [hkind]; decide)) fuel
      · apply (parenthesized_built hv hK _ _ fuel).bind
        intro condition hcondition
        exact (statement_built fuel).bind fun body hbody =>
          .pure ⟨.whileLoop hcondition hbody.1 hbody.2, rfl⟩
      · exact (block_built fuel).map fun body hbody => ⟨.block hbody, rfl⟩

theorem forClauses_built : ∀ fuel : Nat,
    Built K P (fun s => s.Worded v ∧ s.isDeclaration = false) (forClauses fuel)
  | 0 => .abandon
  | fuel + 1 => by
      rw [forClauses_succ]
      apply (Built.expect (hK _) _).andThen
      intro _
      apply (forInitializer_built hv hK fuel).bind
      intro initializer hinitializer
      apply (optionalExpression_built hv (fun kind _ => hK kind) _ fuel).bind
      intro condition hcondition
      apply (Built.expect (hK _) _).andThen
      intro _
      apply (optionalExpression_built hv (fun kind _ => hK kind) _ fuel).bind
      intro increment hincrement
      apply (Built.expect (hK _) _).andThen
      intro _
      apply (statement_built fuel).bind
      intro body hbody
      rw [Derives.forLoop_eq]
      refine .pure ⟨Derives.forTree_worded hinitializer hcondition hincrement hbody.1 hbody.2, ?_⟩
      cases initializer <;> cases increment <;> rfl

end

end Statements

/-! ### Whole programs -/

include hv in
theorem toEnd_comesTo (fuel : Nat) (c : Cursor) (hc : ∀ token ∈ c.rest, P token) :
    ComesTo P (fun program : List Stmt => ∀ s ∈ program, s.Worded v) c
      (some (toEnd fuel c).1, (toEnd fuel c).2) := by
  induction fuel generalizing c with
  | zero => exact .of_same (List.suffix_refl _) rfl rfl (by simp [toEnd])
  | succ fuel ih =>
      unfold toEnd
      split
      · exact .of_same (List.suffix_refl _) rfl rfl (by simp)
      · have hbuilt := declaration_built (K := fun _ => True) hv (fun _ => trivial) fuel
        have hfirst := hbuilt.comesTo hc
        generalize declaration fuel c = outcome at hfirst
        obtain ⟨first, c'⟩ := outcome
        have hothers := ih c' fun token ht => hc token (hfirst.rest.subset ht)
        refine hfirst.trans (hothers.change fun program hprogram => ?_)
        obtain rfl := Option.some.inj hprogram
        refine List.forall_mem_append.mpr ⟨fun s hs => ?_, hothers.kept _ rfl⟩
        obtain rfl := Option.join_eq_some_iff.mp (Option.mem_toList.mp hs)
        exact hfirst.kept _ rfl s rfl

end Readers

/-- **However malformed the tokens are, each fault points at one of them or at the end, and what
is kept is made of them.** -/
theorem parse_comesTo {v : Vocabulary} {tokens : List Token} (hv : Derives.Allows v tokens)
    (endLine lastId : Nat) :
    (∀ fault ∈ (parse tokens endLine lastId).faults, fault.PointsAt (· ∈ tokens) endLine) ∧
      ∀ s ∈ (parse tokens endLine lastId).program, s.Worded v := by
  have hword (token : Token) (h : token ∈ tokens) : Derives.Allows v [token] :=
    ⟨by simpa using hv.token token h, by simpa using hv.unequal token h⟩
  have hparsed := toEnd_comesTo hword (fuelFor tokens) ⟨tokens, endLine, lastId, []⟩ fun _ h => h
  obtain ⟨found, hfaults, hfound⟩ := hparsed.faults
  refine ⟨fun fault hfault => hfound fault ?_, hparsed.kept _ rfl⟩
  rw [List.nil_append] at hfaults
  exact hfaults ▸ hfault

end Grammar

end Lox
