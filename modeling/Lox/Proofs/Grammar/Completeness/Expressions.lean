/-
An expression that follows the rules is read without a fault, and as the rules say.

An expression with operators is derived from the left and read from the left, but a
reader that has read the left operand goes on to the operator by itself.  So what is
shown of a row is not that it is read, but that having read it the reader is where it
may go on: at `operations` or at `suffixes`.  The counter is lower by then, and still
large enough for the tokens that are left.
-/
import Lox.Proofs.Grammar.Completeness.Follow
import Lox.Proofs.Grammar.Progress

namespace Lox.Grammar

open Reader

/-! ### Expressions -/

/-- The row is read up to its end, and there the reader goes on with the tree. -/
def Reads (level : Level) (first : Nat) (tokens : List Token) (last : Nat) (e : Expr) : Prop :=
  ∀ (behind : List Token) (endLine : Nat) (faults : List Fault) (fuel : Nat),
    Avoids level.held behind → 24 * (tokens ++ behind).length + level.depth ≤ fuel →
    ∃ fuel', 24 * behind.length + 15 ≤ fuel' ∧
      expression fuel level ⟨tokens ++ behind, endLine, first, faults⟩
        = tail level fuel' e ⟨behind, endLine, last, faults⟩

section Reads

variable {level : Level} {first middle last : Nat} {before behind tokens : List Token}
  {left right e : Expr} {endLine fuel : Nat} {faults : List Fault}

theorem held_subset (level : Level) : level.held ⊆ level.continues := by
  cases level <;> decide

/-- A row is read as a whole if nothing behind it continues it. -/
theorem Reads.whole (h : Reads level first tokens last e) (behind : List Token)
    (endLine : Nat) (faults : List Fault) (fuel : Nat) (hbehind : Avoids level.continues behind)
    (hfuel : 24 * (tokens ++ behind).length + level.depth ≤ fuel) :
    expression fuel level ⟨tokens ++ behind, endLine, first, faults⟩
      = (some e, ⟨behind, endLine, last, faults⟩) := by
  obtain ⟨fuel', hfuel', heq⟩ :=
    h behind endLine faults fuel (hbehind.subset (held_subset level)) hfuel
  rw [heq]
  exact tail_of_avoids hbehind (by omega)

/-- What is read as a whole is read up to its end. -/
theorem Reads.of_whole (hjoined : level.isJoined = false) (hcall : level ≠ .call)
    (hpos : 0 < tokens.length)
    (h : ∀ (behind : List Token) (endLine : Nat) (faults : List Fault) (fuel : Nat),
      Avoids level.continues behind →
      24 * (tokens ++ behind).length + level.depth ≤ fuel + 1 →
      expression (fuel + 1) level ⟨tokens ++ behind, endLine, first, faults⟩
        = (some e, ⟨behind, endLine, last, faults⟩)) : Reads level first tokens last e := by
  intro behind endLine faults fuel hbehind hfuel
  simp only [List.length_append] at hfuel
  obtain ⟨fuel, rfl⟩ := Nat.exists_eq_succ_of_ne_zero (show fuel ≠ 0 by omega)
  refine ⟨fuel, by omega, ?_⟩
  rw [h behind endLine faults fuel (by simpa [Level.held, hjoined, hcall] using hbehind)
    (by simpa using hfuel)]
  simp [tail, hjoined, hcall, pure_apply]

/-- An expression of an inner level, read as one of the outer. -/
theorem Reads.inner {outer inner : Level} (contains : Derives.Contains outer inner)
    (hstart : ∃ token rest, tokens = token :: rest ∧ token.kind ∈ inner.starters)
    (h : Reads inner first tokens last e) : Reads outer first tokens last e := by
  obtain ⟨token, rest, rfl, hstart⟩ := hstart
  by_cases hjoined : outer.isJoined
  · obtain rfl : inner = outer.tighter := by cases contains <;> rfl
    intro behind endLine faults fuel hbehind hfuel
    have hdepth := Level.depth_tighter hjoined
    simp only [List.length_append, List.length_cons] at hfuel
    obtain ⟨fuel, rfl⟩ := Nat.exists_eq_succ_of_ne_zero (show fuel ≠ 0 by omega)
    refine ⟨fuel, by omega, ?_⟩
    have hread := h.whole behind endLine faults
      fuel (by simpa [Level.held, hjoined] using hbehind)
      (by simp only [List.length_append, List.length_cons]; omega)
    rw [expression_joined hjoined, bind_of_some hread]
    simp [tail, hjoined]
  cases contains with
  | assignment =>
      refine .of_whole rfl (by decide) (by simp) fun behind endLine faults fuel hbehind hfuel => ?_
      have hread := h.whole behind endLine faults
        fuel (hbehind.subset (by decide)) (by simp only [Level.depth] at hfuel ⊢; omega)
      have hnot : accept [.equal] ⟨behind, endLine, last, faults⟩ = (some none, _) :=
        accept_of_not (hbehind.subset (by decide))
      rw [expression, bind_of_some hread, bind_of_some hnot]
      rfl
  | conditional =>
      refine .of_whole rfl (by decide) (by simp) fun behind endLine faults fuel hbehind hfuel => ?_
      have hread := h.whole behind endLine faults
        fuel (hbehind.subset (by decide)) (by simp only [Level.depth] at hfuel ⊢; omega)
      have hnot : accept [.question] ⟨behind, endLine, last, faults⟩ = (some none, _) :=
        accept_of_not (hbehind.subset (by decide))
      rw [expression, bind_of_some hread, bind_of_some hnot]
      rfl
  | unary =>
      refine .of_whole rfl (by decide) (by simp) fun behind endLine faults fuel hbehind hfuel => ?_
      have hread := h.whole behind endLine faults
        fuel (hbehind.subset (by decide)) (by simp only [Level.depth] at hfuel ⊢; omega)
      have hnot : accept [.bang, .minus] ⟨token :: rest ++ behind, endLine, first, faults⟩
          = (some none, ⟨token :: rest ++ behind, endLine, first, faults⟩) := by
        refine accept_of_not (avoids_cons (fun hmem => ?_))
        have hdisjoint : ∀ kind ∈ Level.call.starters, kind ∉ [TokenKind.bang, .minus] := by
          decide
        exact hdisjoint _ hstart hmem
      rw [expression, bind_of_some hnot]
      exact hread
  | call =>
      intro behind endLine faults fuel hbehind hfuel
      simp only [List.length_append, List.length_cons, Level.depth] at hfuel
      obtain ⟨fuel, rfl⟩ := Nat.exists_eq_succ_of_ne_zero (show fuel ≠ 0 by omega)
      refine ⟨fuel, by omega, ?_⟩
      have hread := h.whole behind endLine faults
        fuel (avoids_nil behind)
        (by simp only [List.length_append, List.length_cons, Level.depth]; omega)
      rw [expression, bind_of_some hread]
      rfl
  | _ => exact absurd rfl hjoined

/-- A call-level expression, read as a target. -/
theorem Reads.target
    (hstart : ∃ token rest, tokens = token :: rest ∧ token.kind ∈ Level.call.starters)
    (h : Reads .call first tokens last e) : Reads .conditional first tokens last e := by
  have hstart' : ∃ token rest, tokens = token :: rest ∧ token.kind ∈ Level.comma.starters := by
    obtain ⟨token, rest, rfl, hmem⟩ := hstart
    exact ⟨token, rest, rfl, Level.call.starters_subset hmem⟩
  have hunary := h.inner .unary hstart
  have hterm := (hunary.inner .factor hstart').inner .term hstart'
  have hequality := (hterm.inner .comparison hstart').inner .equality hstart'
  exact ((hequality.inner .and hstart').inner .or hstart').inner .conditional hstart'

/-- Two operands and the operator between them. -/
theorem Reads.operation {operator : Token} (hjoined : level.isJoined)
    (hoperator : operator.kind ∈ level.operators) (hleft : Reads level first before middle left)
    (hright : Reads level.tighter middle behind last right) :
    Reads level first (before ++ operator :: behind) last (combine operator left right) := by
  intro after endLine faults fuel hafter hfuel
  have hrow : before ++ operator :: behind ++ after = before ++ (operator :: (behind ++ after)) := by
    simp
  rw [hrow] at hfuel ⊢
  have hheld : Avoids level.held (operator :: (behind ++ after)) := by
    refine avoids_cons ?_
    simpa [Level.held, hjoined] using Level.not_mem_continues hjoined hoperator
  obtain ⟨fuel₁, hfuel₁, heq⟩ := hleft _ endLine faults fuel hheld hfuel
  simp only [List.length_cons] at hfuel₁
  obtain ⟨fuel₁, rfl⟩ := Nat.exists_eq_succ_of_ne_zero (show fuel₁ ≠ 0 by omega)
  have hdepth := level.tighter.depth_le
  have haccept := accept_cons _ ⟨operator :: (behind ++ after), endLine, middle, faults⟩
    rfl hoperator
  have hread := hright.whole after endLine faults
    fuel₁ (by simpa [Level.held, hjoined] using hafter) (by omega)
  refine ⟨fuel₁, by simp only [List.length_append] at hfuel₁; omega, ?_⟩
  rw [heq]
  simp only [tail, hjoined, if_true]
  rw [operations, bind_of_some haccept]
  exact bind_of_some hread

theorem Reads.binary {operand : Level} {kind : TokenKind} {operator : Token}
    (joins : Derives.Joins level kind operand) (isOperator : operator.kind = kind)
    (hleft : Reads level first before middle left)
    (hright : Reads operand middle behind last right) :
    Reads level first (before ++ operator :: behind) last (.binary operator left right) := by
  obtain ⟨hjoined, hmem, rfl, hcombine⟩ := joins.operator
  rw [← hcombine operator left right isOperator]
  exact hleft.operation hjoined (isOperator ▸ hmem) hright

theorem Reads.logical {operand : Level} {kind : TokenKind} {operator : Token}
    (connects : Derives.Connects level kind operand) (isOperator : operator.kind = kind)
    (hleft : Reads level first before middle left)
    (hright : Reads operand middle behind last right) :
    Reads level first (before ++ operator :: behind) last (.logical operator left right) := by
  obtain ⟨hjoined, hmem, rfl, hcombine⟩ := connects.operator
  rw [← hcombine operator left right isOperator]
  exact hleft.operation hjoined (isOperator ▸ hmem) hright

theorem Reads.unequal {operator : Token} (isOperator : operator.kind = .bangEqual)
    (hleft : Reads .equality first before middle left)
    (hright : Reads .comparison middle behind last right) :
    Reads .equality first (before ++ operator :: behind) last
      (.unary ⟨.bang, "!", operator.line⟩
        (.binary ⟨.equalEqual, "==", operator.line⟩ left right)) := by
  have hread := hleft.operation rfl (by rw [isOperator]; decide) hright
  simpa [combine, isOperator] using hread

/-- A primary expression is read by the rule for its first token. -/
theorem Reads.primary {token : Token} (hmem : token.kind ∈ Level.primary.starters)
    (h : ∀ (behind : List Token) (endLine : Nat) (faults : List Fault) (fuel : Nat),
      24 * (tokens ++ behind).length + 14 ≤ fuel →
      primaryAt token fuel ⟨tokens ++ behind, endLine, first, faults⟩
        = (some e, ⟨behind, endLine, last, faults⟩)) :
    Reads .primary first (token :: tokens) last e := by
  refine .of_whole rfl (by decide) (by simp) fun behind endLine faults fuel _ hfuel => ?_
  simp only [List.length_append, List.length_cons, Level.depth] at hfuel
  obtain ⟨fuel, rfl⟩ := Nat.exists_eq_succ_of_ne_zero (show fuel ≠ 0 by omega)
  have haccept := accept_cons [.kwFalse, .kwTrue, .kwNil, .string, .number,
    .identifier, .kwThis, .kwSuper, .leftParen]
    ⟨token :: tokens ++ behind, endLine, first, faults⟩ rfl hmem
  rw [expression, primary_succ, bind_of_some haccept]
  exact h behind endLine faults fuel (by simp only [List.length_append]; omega)

/-- A name is read as itself. -/
theorem Reads.name {name : Token} (isName : name.kind = .identifier) :
    Reads .primary first [name] (first + 1) (.use ⟨name, first + 1⟩) := by
  refine .primary (by simp [isName, Level.starters]) fun behind endLine faults fuel _ => ?_
  simp only [primaryAt, isName]
  rfl

/-- What an assignment is made of, when its target has been read. -/
theorem assignment_of_target (before : List Token) {target value : Expr} {equals : Token}
    {taken : List Token}
    {final : Nat} (isEquals : equals.kind = .equal)
    (htarget : expression fuel .conditional
        ⟨before ++ equals :: (tokens ++ behind), endLine, first, faults⟩
      = (some target, ⟨equals :: (tokens ++ behind), endLine, middle, faults⟩))
    (hvalue : expression fuel .assignment ⟨tokens ++ behind, endLine, middle, faults⟩
      = (some value, ⟨behind, endLine, last, faults⟩))
    (hassign : assignTo target equals value ⟨behind, endLine, last, faults⟩
      = (some e, ⟨behind, endLine, final, faults⟩))
    (htaken : taken = before ++ equals :: tokens) :
    expression (fuel + 1) .assignment ⟨taken ++ behind, endLine, first, faults⟩
      = (some e, ⟨behind, endLine, final, faults⟩) := by
  have hrow : taken ++ behind = before ++ equals :: (tokens ++ behind) := by simp [htaken]
  have haccept := accept_cons [.equal]
    ⟨equals :: (tokens ++ behind), endLine, middle, faults⟩ rfl (by simp [isEquals])
  rw [hrow, expression, bind_of_some htarget, bind_of_some haccept]
  exact (bind_of_some hvalue).trans hassign

theorem Reads.assignName {name equals : Token} {value : Expr} (isName : name.kind = .identifier)
    (isEquals : equals.kind = .equal) (h : Reads .assignment (first + 1) tokens last value) :
    Reads .assignment first (name :: equals :: tokens) (last + 1)
      (.assign ⟨name, last + 1⟩ value) := by
  refine .of_whole rfl (by decide) (by simp) fun behind endLine faults fuel hbehind hfuel => ?_
  simp only [List.length_append, List.length_cons, Level.depth] at hfuel
  have hstart : ∃ token rest, [name] = token :: rest ∧ token.kind ∈ Level.primary.starters :=
    ⟨name, [], rfl, by simp [isName, Level.starters]⟩
  have hname : Reads .primary first [name] (first + 1) (.use ⟨name, first + 1⟩) := .name isName
  have htarget := (hname.inner .call hstart).target hstart
  refine assignment_of_target [name] isEquals
    (htarget.whole _ _ _ _ (avoids_cons (by rw [isEquals]; decide)) ?_) (h.whole _ _ _ _ hbehind ?_) rfl rfl
  · simp only [List.length_append, List.length_cons, List.length_nil, Level.depth]
    omega
  · simp only [List.length_append, Level.depth]
    omega

theorem Reads.assignProperty {equals name : Token} {object value : Expr}
    (isEquals : equals.kind = .equal)
    (hstart : ∃ token rest, before = token :: rest ∧ token.kind ∈ Level.call.starters)
    (htarget : Reads .call first before middle (.get object name))
    (hvalue : Reads .assignment middle behind last value) :
    Reads .assignment first (before ++ equals :: behind) last (.set object name value) := by
  refine .of_whole rfl (by decide) (by simp only [List.length_append, List.length_cons]; omega)
    fun after endLine faults fuel hafter hfuel => ?_
  obtain ⟨token, rest, hbefore, -⟩ := id hstart
  simp only [hbefore, List.length_append, List.length_cons, Level.depth] at hfuel
  refine assignment_of_target before isEquals
    ((htarget.target hstart).whole _ _ _ _ (avoids_cons (by rw [isEquals]; decide)) ?_)
    (hvalue.whole _ _ _ _ hafter ?_) rfl rfl
  · simp only [hbefore, List.length_append, List.length_cons, Level.depth]
    omega
  · simp only [List.length_append, Level.depth]
    omega

theorem Reads.conditional {question colon : Token} {second third : Nat}
    {tested chosen other : List Token} {condition onTrue onFalse : Expr}
    (isQuestion : question.kind = .question) (isColon : colon.kind = .colon)
    (htest : Reads .or first tested second condition)
    (hchosen : Reads .comma second chosen third onTrue)
    (hother : Reads .conditional third other last onFalse) :
    Reads .conditional first (tested ++ question :: (chosen ++ colon :: other)) last
      (.conditional condition onTrue onFalse) := by
  refine .of_whole rfl (by decide) (by simp only [List.length_append, List.length_cons]; omega)
    fun behind endLine faults fuel hbehind hfuel => ?_
  simp only [List.length_append, List.length_cons, Level.depth] at hfuel
  have hrow : tested ++ question :: (chosen ++ colon :: other) ++ behind
      = tested ++ (question :: (chosen ++ (colon :: (other ++ behind)))) := by simp
  have htest := htest.whole (question :: (chosen ++ (colon :: (other ++ behind))))
    endLine faults fuel
    (avoids_cons (by rw [isQuestion]; decide))
    (by simp only [List.length_append, List.length_cons, Level.depth]; omega)
  have haccept := accept_cons [.question]
    ⟨question :: (chosen ++ (colon :: (other ++ behind))), endLine, second, faults⟩ rfl
    (by simp [isQuestion])
  have hchosen := hchosen.whole (colon :: (other ++ behind)) endLine
    faults fuel (avoids_cons (by rw [isColon]; decide))
    (by simp only [List.length_append, List.length_cons, Level.depth]; omega)
  have hexpect := expect_cons "':' after then branch of conditional expression"
    ⟨colon :: (other ++ behind), endLine, third, faults⟩ rfl isColon
  have hother := hother.whole behind endLine faults
    fuel hbehind (by simp only [List.length_append, Level.depth]; omega)
  rw [hrow, expression, bind_of_some htest, bind_of_some haccept]
  dsimp only
  rw [bind_of_some hchosen, bind_of_some hexpect, bind_of_some hother]
  rfl

theorem Reads.unary {operator : Token} {operand : Expr}
    (isOperator : operator.kind = .bang ∨ operator.kind = .minus)
    (h : Reads .unary first tokens last operand) :
    Reads .unary first (operator :: tokens) last (.unary operator operand) := by
  refine .of_whole rfl (by decide) (by simp) fun behind endLine faults fuel hbehind hfuel => ?_
  simp only [List.length_append, List.length_cons, Level.depth] at hfuel
  have haccept := accept_cons [.bang, .minus]
    ⟨operator :: tokens ++ behind, endLine, first, faults⟩ rfl (by simpa using isOperator)
  have hread := h.whole behind endLine faults
    fuel hbehind (by simp only [List.length_append, Level.depth]; omega)
  rw [expression, bind_of_some haccept]
  exact bind_of_some hread

/-- The row behind an opening parenthesis is read up to the closing one. -/
def ReadsArguments (first : Nat) (tokens : List Token) (last : Nat) (es : List Expr) : Prop :=
  ∀ (closing : Token) (behind : List Token) (endLine : Nat) (faults : List Fault) (fuel : Nat),
    closing.kind = .rightParen → 24 * (tokens ++ closing :: behind).length + 15 ≤ fuel →
    arguments fuel ⟨tokens ++ closing :: behind, endLine, first, faults⟩
      = (some es, ⟨closing :: behind, endLine, last, faults⟩)

theorem readsArguments_nil : ReadsArguments first [] first [] := by
  intro closing behind endLine faults fuel isClosing hfuel
  obtain ⟨fuel, rfl⟩ := Nat.exists_eq_succ_of_ne_zero (show fuel ≠ 0 by omega)
  rw [arguments, bind_of_some (rfl : nextKind _ = _), if_pos (by simp [isClosing])]
  rfl

theorem Reads.call {opening closing : Token} {between : List Token} {callee : Expr}
    {es : List Expr} (isOpening : opening.kind = .leftParen) (isClosing : closing.kind = .rightParen)
    (hcallee : Reads .call first before middle callee)
    (hrow : ReadsArguments middle between last es) :
    Reads .call first (before ++ opening :: (between ++ [closing])) last
      (.call callee closing es) := by
  intro behind endLine faults fuel _ hfuel
  have htokens : before ++ opening :: (between ++ [closing]) ++ behind
      = before ++ (opening :: (between ++ closing :: behind)) := by simp
  rw [htokens] at hfuel ⊢
  obtain ⟨fuel₁, hfuel₁, heq⟩ :=
    hcallee _ endLine faults fuel (by simp [Level.held, Level.isJoined, Avoids]) hfuel
  simp only [List.length_append, List.length_cons] at hfuel₁
  obtain ⟨fuel₁, rfl⟩ := Nat.exists_eq_succ_of_ne_zero (show fuel₁ ≠ 0 by omega)
  have haccept := accept_cons [.leftParen, .dot]
    ⟨opening :: (between ++ closing :: behind), endLine, middle, faults⟩ rfl
    (by simp [isOpening])
  have hread := hrow closing behind endLine faults fuel₁ isClosing
    (by simp only [List.length_append, List.length_cons]; omega)
  have hexpect := expect_cons "')' after arguments"
    (c := ⟨closing :: behind, endLine, last, faults⟩) rfl isClosing
  refine ⟨fuel₁, by omega, ?_⟩
  rw [heq]
  show suffixes (fuel₁ + 1) callee _ = suffixes fuel₁ _ _
  rw [suffixes, bind_of_some haccept]
  dsimp only
  rw [if_pos isOpening, bind_of_some hread, bind_of_some hexpect]

theorem Reads.property {dot name : Token} {object : Expr} (isDot : dot.kind = .dot)
    (isName : name.kind = .identifier) (h : Reads .call first tokens last object) :
    Reads .call first (tokens ++ [dot, name]) last (.get object name) := by
  intro behind endLine faults fuel _ hfuel
  have htokens : tokens ++ [dot, name] ++ behind = tokens ++ (dot :: name :: behind) := by simp
  rw [htokens] at hfuel ⊢
  obtain ⟨fuel₁, hfuel₁, heq⟩ :=
    h _ endLine faults fuel (by simp [Level.held, Level.isJoined, Avoids]) hfuel
  simp only [List.length_cons] at hfuel₁
  obtain ⟨fuel₁, rfl⟩ := Nat.exists_eq_succ_of_ne_zero (show fuel₁ ≠ 0 by omega)
  have haccept := accept_cons [.leftParen, .dot]
    ⟨dot :: name :: behind, endLine, last, faults⟩ rfl (by simp [isDot])
  have hexpect := expect_cons "property name after '.'"
    ⟨name :: behind, endLine, last, faults⟩ rfl isName
  refine ⟨fuel₁, by omega, ?_⟩
  rw [heq]
  show suffixes (fuel₁ + 1) object _ = suffixes fuel₁ _ _
  rw [suffixes, bind_of_some haccept]
  dsimp only
  rw [if_neg (by simp [isDot]), bind_of_some hexpect]

theorem Reads.constant {token : Token} (h : Derives.Constant token e) :
    Reads .primary first [token] first e := by
  refine .primary h.starts fun behind endLine faults fuel _ => ?_
  cases h with
  | false h => simp [primaryAt, h, pure_apply]
  | true h => simp [primaryAt, h, pure_apply]
  | nil h => simp [primaryAt, h, pure_apply]
  | written hvalue =>
      have hkind : token.kind = .string ∨ token.kind = .number := by
        unfold Token.literal? at hvalue
        split at hvalue <;> simp_all
      rcases hkind with h | h <;> simp [primaryAt, h, hvalue, pure_apply]

theorem Reads.this {token : Token} (isThis : token.kind = .kwThis) :
    Reads .primary first [token] (first + 1) (.this ⟨token, first + 1⟩) := by
  refine .primary (by simp [isThis, Level.starters]) fun behind endLine faults fuel _ => ?_
  simp only [primaryAt, isThis]
  rfl

theorem Reads.super {keyword dot method : Token} (isSuper : keyword.kind = .kwSuper)
    (isDot : dot.kind = .dot) (isName : method.kind = .identifier) :
    Reads .primary first [keyword, dot, method] (first + 1)
      (.super ⟨keyword, first + 1⟩ method) := by
  refine .primary (by simp [isSuper, Level.starters]) fun behind endLine faults fuel _ => ?_
  have hdot := expect_cons "'.' after 'super'"
    ⟨[dot, method] ++ behind, endLine, first, faults⟩ rfl isDot
  have hname := expect_cons "superclass method name"
    ⟨method :: behind, endLine, first, faults⟩ rfl isName
  simp only [primaryAt, isSuper]
  rw [bind_of_some hdot]
  exact bind_of_some hname

theorem Reads.group {opening closing : Token} (isOpening : opening.kind = .leftParen)
    (isClosing : closing.kind = .rightParen) (h : Reads .comma first tokens last e) :
    Reads .primary first (opening :: (tokens ++ [closing])) last (.group e) := by
  refine .primary (by simp [isOpening, Level.starters]) fun behind endLine faults fuel hfuel => ?_
  have htokens : tokens ++ [closing] ++ behind = tokens ++ closing :: behind := by simp
  rw [htokens] at hfuel ⊢
  have hread := h.whole _ endLine faults _
    (avoids_cons (by rw [isClosing]; decide)) hfuel
  have hexpect := expect_cons "')' after expression"
    (c := ⟨closing :: behind, endLine, last, faults⟩) rfl isClosing
  simp only [primaryAt, isOpening]
  rw [bind_of_some hread]
  exact bind_of_some hexpect

end Reads

/-- A row of arguments is read up to the closing parenthesis, when so many have been read
before that there are not too many. -/
def ReadsRow (first : Nat) (tokens : List Token) (last : Nat) (es : List Expr) : Prop :=
  ∀ (closing : Token) (behind : List Token) (endLine : Nat) (faults : List Fault)
    (fuel count : Nat), closing.kind = .rightParen → count + es.length ≤ 255 →
    24 * (tokens ++ closing :: behind).length + 14 ≤ fuel →
    argumentsFrom fuel count ⟨tokens ++ closing :: behind, endLine, first, faults⟩
      = (some es, ⟨closing :: behind, endLine, last, faults⟩)

theorem checkCount_of_lt (cause : Fault.Cause) {count : Nat} (h : count < 255) (c : Cursor) :
    checkCount count cause c = (some (), c) := by
  rw [checkCount, if_neg (show ¬maxArguments ≤ count from Nat.not_le.mpr h)]
  rfl

section Rows

variable {first middle last : Nat} {before behind tokens : List Token} {e : Expr}
  {es : List Expr}

theorem ReadsRow.single (h : Reads .assignment first tokens last e) :
    ReadsRow first tokens last [e] := by
  intro closing behind endLine faults fuel count isClosing few hfuel
  obtain ⟨fuel, rfl⟩ := Nat.exists_eq_succ_of_ne_zero (show fuel ≠ 0 by omega)
  have hcount := checkCount_of_lt .tooManyArguments
    (show count < 255 by simp only [List.length_singleton] at few; omega)
  have hread := h.whole (closing :: behind) endLine faults
    fuel (avoids_cons (by rw [isClosing]; decide))
    (by simp only [Level.depth]; omega)
  have hnot : accept [.comma] ⟨closing :: behind, endLine, last, faults⟩
      = (some none, ⟨closing :: behind, endLine, last, faults⟩) :=
    accept_of_not (avoids_cons (by rw [isClosing]; decide))
  rw [argumentsFrom_succ, bind_of_some (hcount _), bind_of_some hread, bind_of_some hnot]
  rfl

theorem ReadsRow.more {comma : Token} (isComma : comma.kind = .comma)
    (h : Reads .assignment first before middle e) (hrow : ReadsRow middle behind last es) :
    ReadsRow first (before ++ comma :: behind) last (e :: es) := by
  intro closing after endLine faults fuel count isClosing few hfuel
  have htokens : before ++ comma :: behind ++ closing :: after
      = before ++ (comma :: (behind ++ closing :: after)) := by simp
  rw [htokens] at hfuel ⊢
  simp only [List.length_append, List.length_cons] at hfuel few
  obtain ⟨fuel, rfl⟩ := Nat.exists_eq_succ_of_ne_zero (show fuel ≠ 0 by omega)
  have hcount := checkCount_of_lt .tooManyArguments (show count < 255 by omega)
  have hread := h.whole (comma :: (behind ++ closing :: after)) endLine
    faults fuel (avoids_cons (by rw [isComma]; decide))
    (by simp only [List.length_append, List.length_cons, Level.depth]; omega)
  have haccept := accept_cons [.comma]
    ⟨comma :: (behind ++ closing :: after), endLine, middle, faults⟩ rfl (by simp [isComma])
  have hothers := hrow closing after endLine faults fuel (count + 1) isClosing (by omega)
    (by simp only [List.length_append, List.length_cons]; omega)
  rw [argumentsFrom_succ, bind_of_some (hcount _), bind_of_some hread, bind_of_some haccept]
  exact bind_of_some hothers

/-- A row that does not begin with the closing parenthesis is read as one. -/
theorem ReadsRow.arguments (h : ReadsRow first tokens last es) (few : es.length ≤ 255)
    (hstart : ∀ behind, Avoids [.rightParen] (tokens ++ behind)) :
    ReadsArguments first tokens last es := by
  intro closing behind endLine faults fuel isClosing hfuel
  obtain ⟨fuel, rfl⟩ := Nat.exists_eq_succ_of_ne_zero (show fuel ≠ 0 by omega)
  rw [Grammar.arguments, bind_of_some (rfl : nextKind _ = _), if_neg (hstart _).head_ne]
  exact h closing behind endLine faults fuel 0 isClosing (by omega) (by omega)

end Rows

theorem Derives.Arguments.avoids {first last : Nat} {tokens : List Token} {es : List Expr}
    (h : Derives.Arguments first tokens last es) (behind : List Token) :
    Avoids [.rightParen] (tokens ++ behind) := by
  cases h with
  | last h => exact h.avoids (by decide) behind
  | more _ h _ =>
      rw [List.append_assoc]
      exact h.avoids (by decide) _

mutual

theorem Derives.Expression.reads {level : Level} {first last : Nat} {tokens : List Token}
    {e : Expr} (h : Derives.Expression level first tokens last e) :
    Reads level first tokens last e :=
  match h with
  | .inner contains h => h.reads.inner contains h.starts
  | .binary joins isOperator hleft hright => .binary joins isOperator hleft.reads hright.reads
  | .logical connects isOperator hleft hright =>
      .logical connects isOperator hleft.reads hright.reads
  | .unequal isOperator hleft hright => .unequal isOperator hleft.reads hright.reads
  | .assignName isName isEquals hvalue => hvalue.reads.assignName isName isEquals
  | .assignProperty isDot isName isEquals hobject hvalue => by
      have hread := hobject.reads.property isDot isName
      have hstart := (Derives.Expression.property isDot isName hobject).starts
      simpa using hread.assignProperty isEquals hstart hvalue.reads
  | .conditional isQuestion isColon htest hchosen hother =>
      htest.reads.conditional isQuestion isColon hchosen.reads hother.reads
  | .unary isOperator h => h.reads.unary isOperator
  | .callEmpty isOpening isClosing h => h.reads.call isOpening isClosing readsArguments_nil
  | .call isOpening isClosing few h row =>
      h.reads.call isOpening isClosing (row.reads.arguments few row.avoids)
  | .property isDot isName h => h.reads.property isDot isName
  | .constant h => .constant h
  | .name isName => .name isName
  | .this isThis => .this isThis
  | .super isSuper isDot isName => .super isSuper isDot isName
  | .group isOpening isClosing h => h.reads.group isOpening isClosing

theorem Derives.Arguments.reads {first last : Nat} {tokens : List Token} {es : List Expr}
    (h : Derives.Arguments first tokens last es) : ReadsRow first tokens last es :=
  match h with
  | .last h => .single h.reads
  | .more isComma h row => .more isComma h.reads row.reads

end

end Lox.Grammar
