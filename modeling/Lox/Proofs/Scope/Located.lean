/-
Where faults of scoping are.

What breaks a rule of scoping is a name or a keyword, and it is a token of the tree in which it
breaks the rule.  So whatever is true of the tokens in a program that failures may point at is
true of those that the analysis reports.
-/
import Lox.Proofs.Scope.Exactness
import Lox.Proofs.Syntax.Shapes

namespace Lox

variable {v : Vocabulary} {P : Token → Prop}

/-- A rule of scoping is broken by a name or a keyword. -/
theorem Offence.role {p : Place} {token : Token} {cause : Fault.Cause} (h : Offence p token cause)
    (hworded : p.node.Worded v) : v .name token ∨ v .keyword token := by
  cases h with
  | returnOutsideFunction hnode | returnValueFromInitializer hnode =>
      rw [hnode] at hworded
      cases hworded with
      | returnWith hkeyword => exact .inr hkeyword
  | breakOutsideLoop hnode =>
      rw [hnode] at hworded
      cases hworded with
      | breakLoop hkeyword => exact .inr hkeyword
  | thisOutsideClass hnode =>
      rw [hnode] at hworded
      cases hworded with
      | this hkeyword => exact .inr hkeyword
  | superOutsideClass hnode | superWithoutSuperclass hnode =>
      rw [hnode] at hworded
      cases hworded with
      | super hkeyword => exact .inr hkeyword
  | inheritsFromItself hnode =>
      rw [hnode] at hworded
      cases hworded with
      | classDecl _ habove => exact .inl (habove _ rfl)
  | alreadyDeclared hnode => exact .inl (hworded.declared hnode)
  | readInOwnInitializer hnode =>
      rw [hnode] at hworded
      cases hworded with
      | use hname => exact .inl hname

/-- **What the analysis reports is at names and keywords of the program.** -/
theorem Scope.analyse_located {program : List Stmt} (h : ∀ s ∈ program, s.Worded v) :
    ∀ fault ∈ (Scope.analyse program).faults, ∃ token,
      (v .name token ∨ v .keyword token) ∧ ∃ cause, fault = Fault.atToken token cause := by
  obtain ⟨reports, -, hreports, hfaults⟩ := analyse_reported h
  rw [hfaults, List.forall_mem_map]
  intro report hreport
  obtain ⟨hplace, hoffence⟩ := (hreports report).mp hreport
  have hworded : report.place.node.Worded v :=
    Place.IsIn.of_hereditary (Node.worded_hereditary v) h hplace
  exact ⟨report.token, hoffence.role hworded, report.cause, rfl⟩

end Lox
