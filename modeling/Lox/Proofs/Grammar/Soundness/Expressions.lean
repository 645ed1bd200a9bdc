/-
What is read as an expression without a fault follows the rules.

The statements look back from the end of a reading.  If no fault is recorded there, none
was recorded before, since faults are never taken back; and then the tokens that were
taken derive what was kept.  `Yields` says both, so a reader made of several parts is
followed from its last part to its first.

Where an operator or a suffix may follow, what was read so far is the left part of what
is being read, and a reader is given it as an argument.  It extends every derivation of
that argument.
-/
import Lox.Proofs.Grammar.Derivation
import Lox.Proofs.Grammar.Progress

namespace Lox.Grammar

open Reader

/-- Between the cursors `a` was read: without a fault at the end there was none at the
start, and the tokens in between are related to `a`. -/
def Yields {α : Type} (R : Nat → List Token → Nat → α → Prop) (c c' : Cursor) (a : α) : Prop :=
  c'.faults = [] → c.faults = [] ∧
    ∃ taken, c.rest = taken ++ c'.rest ∧ R c.lastId taken c'.lastId a

/-! ### Which trees are targets -/

/-- Only a bare name has the tree of a variable. -/
theorem Derives.name_of_use {level : Level} {first last : Nat} {tokens : List Token}
    {e : Expr} {occurrence : Occurrence} (h : Derives.Expression level first tokens last e) :
    e = .use occurrence → ∃ token, tokens = [token] ∧ token.kind = .identifier ∧
      last = first + 1 ∧ occurrence = ⟨token, first + 1⟩ :=
  match h with
  | .inner _ h => name_of_use h
  | @Derives.Expression.name token _ isName => fun he => by
      obtain rfl := Expr.use.inj he
      exact ⟨token, rfl, isName, rfl, rfl⟩
  | .constant h => fun he => by cases h <;> simp at he
  | .binary .. | .logical .. | .unequal .. | .assignName .. | .assignProperty ..
  | .conditional .. | .unary .. | .callEmpty .. | .call .. | .property .. | .this ..
  | .super .. | .group .. => fun he => by simp at he

/-- Only a property behind a call-level expression has the tree of a property. -/
theorem Derives.property_of_get {level : Level} {first last : Nat} {tokens : List Token}
    {e object : Expr} {name : Token} (h : Derives.Expression level first tokens last e) :
    e = .get object name → ∃ before dot, tokens = before ++ [dot, name] ∧ dot.kind = .dot ∧
      name.kind = .identifier ∧ Derives.Expression .call first before last object :=
  match h with
  | .inner _ h => property_of_get h
  | @Derives.Expression.property dot _ _ _ before _ isDot isName h => fun he => by
      obtain ⟨rfl, rfl⟩ := Expr.get.inj he
      exact ⟨before, dot, rfl, isDot, isName, h⟩
  | .constant h => fun he => by cases h <;> simp at he
  | .binary .. | .logical .. | .unequal .. | .assignName .. | .assignProperty ..
  | .conditional .. | .unary .. | .callEmpty .. | .call .. | .name .. | .this ..
  | .super .. | .group .. => fun he => by simp at he

/-! ### Expressions -/

/-- What the operators of a level make of their operands follows the rules. -/
theorem combine_sound {level : Level} {operator : Token} {first middle last : Nat}
    {before behind : List Token} {left right : Expr} (h : operator.kind ∈ level.operators)
    (hleft : Derives.Expression level first before middle left)
    (hright : Derives.Expression level.tighter middle behind last right) :
    Derives.Expression level first (before ++ operator :: behind) last
      (combine operator left right) := by
  cases level <;> simp only [Level.operators, List.mem_cons, List.not_mem_nil, or_false] at h
  case comma => simpa [combine, h] using .binary .comma h hleft hright
  case or => simpa [combine, h] using .logical .or h hleft hright
  case and => simpa [combine, h] using .logical .and h hleft hright
  case equality =>
      rcases h with h | h
      · simpa [combine, h] using .unequal h hleft hright
      · simpa [combine, h] using .binary .equal h hleft hright
  case comparison =>
      rcases h with h | h | h | h
      · simpa [combine, h] using .binary .greater h hleft hright
      · simpa [combine, h] using .binary .greaterEqual h hleft hright
      · simpa [combine, h] using .binary .less h hleft hright
      · simpa [combine, h] using .binary .lessEqual h hleft hright
  case term =>
      rcases h with h | h
      · simpa [combine, h] using .binary .minus h hleft hright
      · simpa [combine, h] using .binary .plus h hleft hright
  case factor =>
      rcases h with h | h
      · simpa [combine, h] using .binary .slash h hleft hright
      · simpa [combine, h] using .binary .star h hleft hright

theorem contains_tighter {level : Level} (h : level.isJoined) :
    Derives.Contains level level.tighter := by
  cases level <;> first | constructor | exact absurd h (by decide)

/-- Without an operand nothing is kept. -/
theorem noOperand_eq_none (fuel : Nat) (c : Cursor) : (noOperand fuel c).1 = none := by
  have habandon : ∀ {α β : Type} (p : Reader α) (c : Cursor),
      ((p >>= fun _ => (abandon : Reader β)) c).1 = none := by
    intro α β p c
    rw [bind_apply]
    split <;> rfl
  cases fuel with
  | zero => rfl
  | succ fuel =>
      rw [noOperand, bind_of_some (rfl : nextKind c = _)]
      cases (c.rest.head?.map Token.kind).bind Level.ofOrphan? with
      | none => exact habandon _ c
      | some level =>
          simp only [← bind_assoc]
          exact habandon _ c

/-- An assignment to what was read, when the value has been read as well. -/
theorem assignTo_sound {target value e : Expr} {equals : Token} {c c₁ c₂ c' : Cursor}
    {rest : List Token} (hequals : equals.kind = .equal) (hrest : c₁.rest = equals :: rest)
    (htarget : Yields (Derives.Expression .conditional) c c₁ target)
    (hvalue : Yields (Derives.Expression .assignment) { c₁ with rest := rest } c₂ value)
    (h : assignTo target equals value c₂ = (some e, c')) :
    Yields (Derives.Expression .assignment) c c' e := by
  intro hnil
  unfold assignTo at h
  split at h
  · rename_i occurrence
    obtain ⟨rfl, rfl⟩ : Expr.assign ⟨occurrence.name, c₂.lastId + 1⟩ value = e ∧
        { c₂ with lastId := c₂.lastId + 1 } = c' := pure_eq_some h
    obtain ⟨hnil₁, behind, hbehind, hvalue⟩ := hvalue hnil
    obtain ⟨hnil₀, before, hbefore, htarget⟩ := htarget hnil₁
    obtain ⟨name, rfl, isName, hlast, rfl⟩ := Derives.name_of_use htarget rfl
    refine ⟨hnil₀, name :: equals :: behind, ?_, ?_⟩
    · rw [hbefore, hrest]
      simpa using hbehind
    · simp only [hlast] at hvalue
      exact .assignName isName hequals hvalue
  · rename_i object name
    obtain ⟨rfl, rfl⟩ := pure_eq_some h
    obtain ⟨hnil₁, behind, hbehind, hvalue⟩ := hvalue hnil
    obtain ⟨hnil₀, before, hbefore, htarget⟩ := htarget hnil₁
    obtain ⟨before, dot, rfl, isDot, isName, hobject⟩ := Derives.property_of_get htarget rfl
    refine ⟨hnil₀, before ++ dot :: name :: equals :: behind, ?_, ?_⟩
    · rw [hbefore, hrest]
      simpa using hbehind
    · exact .assignProperty isDot isName hequals hobject hvalue
  · obtain ⟨_, c₃, hfault, h⟩ := bind_eq_some h
    obtain ⟨-, rfl⟩ := pure_eq_some h
    have hfaults : c₂.faults ++ [Fault.atToken equals .invalidTarget] = c₃.faults := by
      simp only [faultAt, Prod.mk.injEq] at hfault
      rw [← hfault.2]
    rw [hnil] at hfaults
    simp at hfaults

/-- Counting finds nothing wrong only if there are not too many. -/
theorem checkCount_sound {count : Nat} {cause : Fault.Cause} {c c' : Cursor}
    (h : checkCount count cause c = (some (), c')) (hnil : c'.faults = []) :
    c = c' ∧ count < 255 := by
  unfold checkCount at h
  split at h
  · simp only [faultHere, Prod.mk.injEq] at h
    rw [← h.2] at hnil
    simp at hnil
  · rename_i hcount
    obtain ⟨-, rfl⟩ := pure_eq_some h
    exact ⟨rfl, Nat.not_le.mp hcount⟩

mutual

theorem expression_sound : ∀ (fuel : Nat) {level : Level} {c c' : Cursor} {e : Expr},
    expression fuel level c = (some e, c') → Yields (Derives.Expression level) c c' e
  | 0, level, c, c', e, h => by simp [expression, abandon] at h
  | fuel + 1, level, c, c', e, h => by
      by_cases hjoined : level.isJoined
      · rw [expression_joined hjoined] at h
        obtain ⟨left, c₁, hleft, h⟩ := bind_eq_some h
        intro hnil
        obtain ⟨hnil₁, behind, hbehind, hextend⟩ := operations_sound fuel h hnil
        obtain ⟨hnil₀, before, hbefore, hleft⟩ := expression_sound fuel hleft hnil₁
        refine ⟨hnil₀, before ++ behind, by rw [hbefore, hbehind, List.append_assoc], ?_⟩
        exact hextend (.inner (contains_tighter hjoined) hleft)
      cases level with
      | assignment =>
          obtain ⟨target, c₁, htarget, h⟩ := bind_eq_some h
          have htarget := expression_sound fuel htarget
          rcases accept_bind_eq_some h with ⟨h, -⟩ | ⟨equals, rest, hrest, hmem, h⟩
          · obtain ⟨rfl, rfl⟩ := pure_eq_some h
            intro hnil
            obtain ⟨hnil₀, taken, htaken, htarget⟩ := htarget hnil
            exact ⟨hnil₀, taken, htaken, .inner .assignment htarget⟩
          · obtain ⟨value, c₂, hvalue, h⟩ := bind_eq_some h
            have hvalue := expression_sound fuel hvalue
            exact assignTo_sound (by simpa using hmem) hrest htarget hvalue h
      | conditional =>
          obtain ⟨condition, c₁, htest, h⟩ := bind_eq_some h
          have htest := expression_sound fuel htest
          rcases accept_bind_eq_some h with ⟨h, -⟩ | ⟨question, rest, hrest, hmem, h⟩
          · obtain ⟨rfl, rfl⟩ := pure_eq_some h
            intro hnil
            obtain ⟨hnil₀, taken, htaken, htest⟩ := htest hnil
            exact ⟨hnil₀, taken, htaken, .inner .conditional htest⟩
          · obtain ⟨onTrue, c₂, hchosen, h⟩ := bind_eq_some h
            obtain ⟨colon, rest₂, hrest₂, hcolon, h⟩ := expect_bind_eq_some h
            obtain ⟨onFalse, c₃, hother, h⟩ := bind_eq_some h
            obtain ⟨rfl, rfl⟩ := pure_eq_some h
            intro hnil
            obtain ⟨hnil₂, other, hother', hother⟩ := expression_sound fuel hother hnil
            obtain ⟨hnil₁, chosen, hchosen', hchosen⟩ := expression_sound fuel hchosen hnil₂
            obtain ⟨hnil₀, tested, htest', htest⟩ := htest hnil₁
            refine ⟨hnil₀, tested ++ question :: (chosen ++ colon :: other), ?_,
              .conditional (by simpa using hmem) hcolon htest hchosen hother⟩
            simp only at hchosen' hother'
            rw [htest', hrest, hchosen', hrest₂, hother']
            simp
      | unary =>
          rcases accept_bind_eq_some h with ⟨h, -⟩ | ⟨operator, rest, hrest, hmem, h⟩
          · intro hnil
            obtain ⟨hnil₀, taken, htaken, hcall⟩ := expression_sound fuel h hnil
            exact ⟨hnil₀, taken, htaken, .inner .unary hcall⟩
          · obtain ⟨operand, c₁, hoperand, h⟩ := bind_eq_some h
            obtain ⟨rfl, rfl⟩ := pure_eq_some h
            intro hnil
            obtain ⟨hnil₀, taken, htaken, hoperand⟩ := expression_sound fuel hoperand hnil
            refine ⟨hnil₀, operator :: taken, ?_, .unary (by simpa using hmem) hoperand⟩
            simp only at htaken
            rw [hrest, htaken, List.cons_append]
      | call =>
          obtain ⟨callee, c₁, hcallee, h⟩ := bind_eq_some h
          intro hnil
          obtain ⟨hnil₁, behind, hbehind, hextend⟩ := suffixes_sound fuel h hnil
          obtain ⟨hnil₀, before, hbefore, hcallee⟩ := expression_sound fuel hcallee hnil₁
          refine ⟨hnil₀, before ++ behind, by rw [hbefore, hbehind, List.append_assoc], ?_⟩
          exact hextend (.inner .call hcallee)
      | primary => exact primary_sound fuel h
      | _ => exact absurd rfl hjoined

theorem operations_sound : ∀ (fuel : Nat) {level : Level} {left e : Expr} {c c' : Cursor},
    operations fuel level left c = (some e, c') → c'.faults = [] → c.faults = [] ∧
      ∃ taken, c.rest = taken ++ c'.rest ∧ ∀ {first before},
        Derives.Expression level first before c.lastId left →
        Derives.Expression level first (before ++ taken) c'.lastId e
  | 0, level, left, e, c, c', h => by simp [operations, abandon] at h
  | fuel + 1, level, left, e, c, c', h => by
      intro hnil
      rcases accept_bind_eq_some h with ⟨h, -⟩ | ⟨operator, rest, hrest, hmem, h⟩
      · obtain ⟨rfl, rfl⟩ := pure_eq_some h
        exact ⟨hnil, [], rfl, fun hleft => by simpa using hleft⟩
      · obtain ⟨right, c₁, hright, h⟩ := bind_eq_some h
        obtain ⟨hnil₁, behind, hbehind, hextend⟩ := operations_sound fuel h hnil
        obtain ⟨hnil₀, taken, htaken, hright⟩ := expression_sound fuel hright hnil₁
        refine ⟨hnil₀, operator :: (taken ++ behind), ?_, fun hleft => ?_⟩
        · simp only at htaken
          rw [hrest, htaken, hbehind]
          simp
        · simpa using hextend (combine_sound hmem hleft hright)

theorem suffixes_sound : ∀ (fuel : Nat) {callee e : Expr} {c c' : Cursor},
    suffixes fuel callee c = (some e, c') → c'.faults = [] → c.faults = [] ∧
      ∃ taken, c.rest = taken ++ c'.rest ∧ ∀ {first before},
        Derives.Expression .call first before c.lastId callee →
        Derives.Expression .call first (before ++ taken) c'.lastId e
  | 0, callee, e, c, c', h => by simp [suffixes, abandon] at h
  | fuel + 1, callee, e, c, c', h => by
      intro hnil
      rcases accept_bind_eq_some h with ⟨h, -⟩ | ⟨token, rest, hrest, hmem, h⟩
      · obtain ⟨rfl, rfl⟩ := pure_eq_some h
        exact ⟨hnil, [], rfl, fun hcallee => by simpa using hcallee⟩
      by_cases hparen : token.kind = .leftParen
      · simp only [hparen, if_pos] at h
        obtain ⟨arguments, c₁, hrow, h⟩ := bind_eq_some h
        obtain ⟨paren, rest₁, hrest₁, hclosing, h⟩ := expect_bind_eq_some h
        obtain ⟨hnil₁, behind, hbehind, hextend⟩ := suffixes_sound fuel h hnil
        simp only at hbehind
        obtain ⟨hnil₀, row, hrow', hrow⟩ := arguments_sound fuel hrow hnil₁
        refine ⟨hnil₀, token :: (row ++ paren :: behind), ?_, fun hcallee => ?_⟩
        · simp only at hrow'
          rw [hrest, hrow', hrest₁, hbehind]
          simp
        · rcases hrow with ⟨rfl, rfl, hlast⟩ | ⟨hrow, hfew⟩
          · simp only at hlast
            rw [← hlast] at hcallee
            simpa using hextend (.callEmpty hparen hclosing hcallee)
          · simpa using hextend (.call hparen hclosing hfew hcallee hrow)
      · simp only [hparen, if_false] at h
        obtain ⟨property, rest₁, hrest₁, hname, h⟩ := expect_bind_eq_some h
        obtain ⟨hnil₀, behind, hbehind, hextend⟩ := suffixes_sound fuel h hnil
        have hdot : token.kind = .dot := by simpa [hparen] using hmem
        refine ⟨hnil₀, token :: property :: behind, ?_, fun hcallee => ?_⟩
        · simp only at hrest₁ hbehind
          rw [hrest, hrest₁, hbehind]
          simp
        · simpa using hextend (.property hdot hname hcallee)

theorem arguments_sound : ∀ (fuel : Nat) {es : List Expr} {c c' : Cursor},
    arguments fuel c = (some es, c') → Yields (fun first tokens last es =>
      tokens = [] ∧ es = [] ∧ last = first ∨
        Derives.Arguments first tokens last es ∧ es.length ≤ 255) c c' es
  | 0, es, c, c', h => by simp [arguments, abandon] at h
  | fuel + 1, es, c, c', h => by
      rw [arguments, bind_of_some (rfl : nextKind c = _)] at h
      intro hnil
      split at h
      · obtain ⟨rfl, rfl⟩ := pure_eq_some h
        exact ⟨hnil, [], rfl, Or.inl ⟨rfl, rfl, rfl⟩⟩
      · obtain ⟨hnil₀, taken, htaken, hrow, hfew⟩ := argumentsFrom_sound fuel h hnil
        exact ⟨hnil₀, taken, htaken, Or.inr ⟨hrow, by omega⟩⟩

theorem argumentsFrom_sound : ∀ (fuel : Nat) {count : Nat} {es : List Expr} {c c' : Cursor},
    argumentsFrom fuel count c = (some es, c') → Yields (fun first tokens last es =>
      Derives.Arguments first tokens last es ∧ count + es.length ≤ 255) c c' es
  | 0, count, es, c, c', h => by simp [argumentsFrom, abandon] at h
  | fuel + 1, count, es, c, c', h => by
      rw [argumentsFrom_succ] at h
      obtain ⟨_, c₀, hcheck, h⟩ := bind_eq_some h
      obtain ⟨argument, c₁, hargument, h⟩ := bind_eq_some h
      have hargument := expression_sound fuel hargument
      intro hnil
      rcases accept_bind_eq_some h with ⟨h, -⟩ | ⟨comma, rest, hrest, hmem, h⟩
      · obtain ⟨rfl, rfl⟩ := pure_eq_some h
        obtain ⟨hnil₀, taken, htaken, hargument⟩ := hargument hnil
        obtain ⟨rfl, hcount⟩ := checkCount_sound hcheck hnil₀
        exact ⟨hnil₀, taken, htaken, .last hargument, by simp only [List.length_singleton]; omega⟩
      · obtain ⟨others, c₂, hothers, h⟩ := bind_eq_some h
        obtain ⟨rfl, rfl⟩ := pure_eq_some h
        obtain ⟨hnil₁, row, hrow', hrow, hfew⟩ := argumentsFrom_sound fuel hothers hnil
        obtain ⟨hnil₀, taken, htaken, hargument⟩ := hargument hnil₁
        obtain ⟨rfl, hcount⟩ := checkCount_sound hcheck hnil₀
        refine ⟨hnil₀, taken ++ comma :: row, ?_, .more (by simpa using hmem) hargument hrow,
          by simp only [List.length_cons]; omega⟩
        simp only at hrow'
        rw [htaken, hrest, hrow']
        simp

theorem primary_sound : ∀ (fuel : Nat) {c c' : Cursor} {e : Expr},
    primary fuel c = (some e, c') → Yields (Derives.Expression .primary) c c' e
  | 0, c, c', e, h => by simp [primary, abandon] at h
  | fuel + 1, c, c', e, h => by
      rw [primary_succ] at h
      rcases accept_bind_eq_some h with ⟨h, -⟩ | ⟨token, rest, hrest, hmem, h⟩
      · have hnone := noOperand_eq_none fuel c
        simp only at h
        rw [h] at hnone
        simp at hnone
      intro hnil
      obtain ⟨p, hp, h⟩ : ∃ p, primaryAt token fuel = p ∧
          p { c with rest := rest } = (some e, c') := ⟨_, rfl, h⟩
      unfold primaryAt at hp
      split at hp <;> subst hp
      · rename_i hkind
        obtain ⟨rfl, rfl⟩ := pure_eq_some h
        exact ⟨hnil, [token], hrest, .constant (.false hkind)⟩
      · rename_i hkind
        obtain ⟨rfl, rfl⟩ := pure_eq_some h
        exact ⟨hnil, [token], hrest, .constant (.true hkind)⟩
      · rename_i hkind
        obtain ⟨rfl, rfl⟩ := pure_eq_some h
        exact ⟨hnil, [token], hrest, .constant (.nil hkind)⟩
      · rename_i hkind
        obtain ⟨rfl, rfl⟩ := pure_eq_some h
        exact ⟨hnil, [token], hrest, .name hkind⟩
      · rename_i hkind
        obtain ⟨rfl, rfl⟩ := pure_eq_some h
        exact ⟨hnil, [token], hrest, .this hkind⟩
      · rename_i hkind
        obtain ⟨dot, rest₁, hrest₁, hdot, h⟩ := expect_bind_eq_some h
        obtain ⟨method, rest₂, hrest₂, hmethod, h⟩ := expect_bind_eq_some h
        obtain ⟨rfl, rfl⟩ := pure_eq_some h
        refine ⟨hnil, [token, dot, method], ?_, .super hkind hdot hmethod⟩
        simp only at hrest₁ hrest₂
        rw [hrest, hrest₁, hrest₂]
        rfl
      · rename_i hkind
        obtain ⟨inner, c₁, hinner, h⟩ := bind_eq_some h
        obtain ⟨closing, rest₁, hrest₁, hclosing, h⟩ := expect_bind_eq_some h
        obtain ⟨rfl, rfl⟩ := pure_eq_some h
        obtain ⟨hnil₀, taken, htaken, hinner⟩ := expression_sound fuel hinner hnil
        refine ⟨hnil₀, token :: (taken ++ [closing]), ?_, .group hkind hclosing hinner⟩
        simp only at htaken
        rw [hrest, htaken, hrest₁]
        simp
      · obtain ⟨rfl, rfl⟩ := pure_eq_some h
        have hkind : token.kind = .string ∨ token.kind = .number := by
          simp only [List.mem_cons, List.not_mem_nil, or_false] at hmem
          rcases hmem with h | h | h | h | h | h | h | h | h <;> first
            | exact Or.inl h
            | exact Or.inr h
            | contradiction
        obtain ⟨value, hvalue⟩ : ∃ value, token.literal? = some value := by
          rcases hkind with hkind | hkind <;> simp [Token.literal?, hkind]
        rw [hvalue]
        exact ⟨hnil, [token], hrest, .constant (.written hvalue)⟩

end

end Lox.Grammar
