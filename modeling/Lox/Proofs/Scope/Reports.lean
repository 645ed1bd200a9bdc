/-
Reports of offences.

Faults are a full report of some places if they are the faults of the offences at these
places, each offence reported once.  Full reports of places that have nothing in common
add up, so a full report of a place is put together from what was checked at the place
itself and the full reports of its parts.
-/
import Mathlib.Data.List.Nodup
import Lox.Proofs.Scope.Offences
import Lox.Scope.Analysis

namespace Lox.Scope

open Place

/-! ### Reports -/

/-- An offence at a place, as it is reported. -/
structure Report where
  place : Place
  token : Token
  cause : Fault.Cause

namespace Report

/-- The fault that is reported. -/
def fault (report : Report) : Fault :=
  Fault.atToken report.token report.cause

/-- The report is right. -/
def Holds (report : Report) : Prop :=
  Offence report.place report.token report.cause

end Report

/-- The faults are those of the offences among some places, each offence once. -/
def ReportedAmong (places : Place → Prop) (faults : List Fault) : Prop :=
  ∃ reports : List Report, reports.Nodup ∧
    (∀ report, report ∈ reports ↔ places report.place ∧ report.Holds) ∧
    faults = reports.map Report.fault

/-- The faults are those of the offences at a place and inside of it, each once. -/
def Reported (p : Place) (faults : List Fault) : Prop :=
  ReportedAmong p.Within faults

/-- The same for parts of a place that stand in a row, the first at the position. -/
def ReportedRow (p : Place) (position : Nat) (row : List Node) (faults : List Fault) : Prop :=
  ReportedAmong
    (fun q => ∃ i node, row[i]? = some node ∧ (p.part (position + i) node).Within q) faults

theorem reportedAmong_append {places places' : Place → Prop} {before behind : List Fault}
    (hbefore : ReportedAmong places before) (hbehind : ReportedAmong places' behind)
    (hdisjoint : ∀ p, places p → ¬places' p) :
    ReportedAmong (fun p => places p ∨ places' p) (before ++ behind) := by
  obtain ⟨reports, hnodup, hmem, rfl⟩ := hbefore
  obtain ⟨reports', hnodup', hmem', rfl⟩ := hbehind
  refine ⟨reports ++ reports', List.nodup_append.mpr ⟨hnodup, hnodup', ?_⟩, fun report => ?_, ?_⟩
  · rintro report hreport report' hreport' rfl
    exact hdisjoint report.place ((hmem report).mp hreport).1 ((hmem' report).mp hreport').1
  · rw [List.mem_append, hmem, hmem', or_and_right]
  · rw [List.map_append]

theorem ReportedAmong.congr {places places' : Place → Prop} {faults : List Fault}
    (h : ReportedAmong places faults) (hplaces : ∀ p, places' p ↔ places p) :
    ReportedAmong places' faults := by
  obtain ⟨reports, hnodup, hmem, hfaults⟩ := h
  exact ⟨reports, hnodup, fun report => by rw [hmem, hplaces], hfaults⟩

variable {p : Place} {position : Nat} {node : Node}

theorem reportedRow_nil : ReportedRow p position [] [] :=
  ⟨[], List.nodup_nil, by simp, rfl⟩

theorem reportedRow_append {row others : List Node} {first rest : List Fault}
    (hfirst : ReportedRow p position row first)
    (hrest : ReportedRow p (position + row.length) others rest) :
    ReportedRow p position (row ++ others) (first ++ rest) := by
  refine (reportedAmong_append hfirst hrest ?_).congr fun q => ?_
  · rintro q ⟨i, node, hnode, hwithin⟩ ⟨j, node', -, hwithin'⟩
    have heq := hwithin.position_eq hwithin'
    have hi := (List.getElem?_eq_some_iff.mp hnode).1
    omega
  · constructor
    · rintro ⟨i, node, hnode, hwithin⟩
      rcases Nat.lt_or_ge i row.length with hi | hi
      · rw [List.getElem?_append_left hi] at hnode
        exact Or.inl ⟨i, node, hnode, hwithin⟩
      · rw [List.getElem?_append_right hi] at hnode
        refine Or.inr ⟨i - row.length, node, hnode, ?_⟩
        rwa [Nat.add_assoc, Nat.add_sub_cancel' hi]
    · rintro (⟨i, node, hnode, hwithin⟩ | ⟨i, node, hnode, hwithin⟩)
      · refine ⟨i, node, ?_, hwithin⟩
        rw [List.getElem?_append_left (List.getElem?_eq_some_iff.mp hnode).1, hnode]
      · refine ⟨row.length + i, node, ?_, ?_⟩
        · rw [List.getElem?_append_right (Nat.le_add_right _ _), Nat.add_sub_cancel_left, hnode]
        · rwa [← Nat.add_assoc]

theorem reportedRow_single {faults : List Fault} (h : Reported (p.part position node) faults) :
    ReportedRow p position [node] faults := by
  refine h.congr fun q => ?_
  constructor
  · rintro ⟨i, other, hother, hwithin⟩
    obtain ⟨rfl, rfl⟩ : i = 0 ∧ node = other := by
      cases i <;> simp_all
    exact hwithin
  · exact fun hwithin => ⟨0, node, rfl, hwithin⟩

theorem reportedRow_cons {row : List Node} {first rest : List Fault}
    (hfirst : Reported (p.part position node) first)
    (hrest : ReportedRow p (position + 1) row rest) :
    ReportedRow p position (node :: row) (first ++ rest) :=
  reportedRow_append (reportedRow_single hfirst) hrest

/-! ### Rules that were checked -/

/-- A rule that was checked at a place: whether it is broken, and what fault that is. -/
structure Check where
  broken : Bool
  token : Token
  cause : Fault.Cause

/-- The faults that checks have found. -/
def Check.faults (checks : List Check) : List Fault :=
  (checks.filter Check.broken).map (fun check => Fault.atToken check.token check.cause)

theorem Check.faults_nil : faults [] = [] :=
  rfl

theorem Check.faults_cons (check : Check) (rest : List Check) :
    faults (check :: rest)
      = (Findings.faultIf check.broken check.token check.cause).faults ++ faults rest := by
  cases h : check.broken <;> simp [faults, h, Findings.faultIf, Findings.nothing]

/-- The checks are for different faults, and have found what is wrong at the place itself. -/
structure Checked (p : Place) (checks : List Check) : Prop where
  nodup : (checks.map Check.cause).Nodup
  exact : ∀ token cause, Offence p token cause ↔ ⟨true, token, cause⟩ ∈ checks

theorem Checked.reported {checks : List Check} (h : Checked p checks) :
    ReportedAmong (fun q => q = p) (Check.faults checks) := by
  refine ⟨(checks.filter Check.broken).map (fun check => ⟨p, check.token, check.cause⟩), ?_, ?_, ?_⟩
  · have hcauses : ((checks.filter Check.broken).map Check.cause).Nodup :=
      h.nodup.sublist (List.filter_sublist.map Check.cause)
    refine List.Nodup.of_map Report.cause ?_
    rw [List.map_map]
    exact hcauses
  · rintro ⟨q, token, cause⟩
    constructor
    · intro hmem
      obtain ⟨⟨broken, token', cause'⟩, hcheck, heq⟩ := List.mem_map.mp hmem
      obtain ⟨hcheck, hbroken⟩ := List.mem_filter.mp hcheck
      obtain ⟨rfl, rfl, rfl⟩ := Report.mk.inj heq
      obtain rfl : broken = true := hbroken
      exact ⟨rfl, (h.exact _ _).mpr hcheck⟩
    · rintro ⟨rfl, hoffence⟩
      have hcheck := (h.exact token cause).mp hoffence
      exact List.mem_map.mpr ⟨⟨true, token, cause⟩, List.mem_filter.mpr ⟨hcheck, rfl⟩, rfl⟩
  · rw [Check.faults, List.map_map]
    rfl

/-- What is wrong at a place and inside of it. -/
theorem Checked.inside {checks : List Check} {inside : List Fault} (h : Checked p checks)
    (hnode : p.node = node) (hinside : ReportedRow p 0 node.parts inside) :
    Reported p (Check.faults checks ++ inside) := by
  subst hnode
  refine (reportedAmong_append h.reported hinside ?_).congr fun q => ?_
  · rintro q rfl ⟨i, other, -, hwithin⟩
    exact not_within_part hwithin
  · rw [within_iff]
    simp

/-- What has no parts is only wrong itself. -/
theorem Checked.alone {checks : List Check} (h : Checked p checks) (hnode : p.node = node)
    (hparts : node.parts = []) : Reported p (Check.faults checks) := by
  have hinside : ReportedRow p 0 node.parts [] := by
    rw [hparts]
    exact reportedRow_nil
  simpa using h.inside hnode hinside

/-- Nothing can be wrong with what no rule is about. -/
theorem checked_nil (h : ∀ token cause, ¬Offence p token cause) : Checked p [] :=
  ⟨List.nodup_nil, fun token cause => by simp [h token cause]⟩

/-- Where nothing can be wrong at the place itself, what is wrong is wrong inside. -/
theorem Reported.of_inside {inside : List Fault} (h : ∀ token cause, ¬Offence p token cause)
    (hnode : p.node = node) (hinside : ReportedRow p 0 node.parts inside) : Reported p inside :=
  (checked_nil h).inside hnode hinside

end Lox.Scope
