/-
Accepted programs.

A session accepts a program whose words, grammar and scopes have no fault.  Its
occurrences are then numbered behind all earlier ones, so what the analysis adds to the
table of distances is new to the table: every occurrence of the program is resolved, and
so is everything that was resolved before.
-/
import Lox.Proofs.Grammar.Exactness
import Lox.Proofs.Grammar.Trees
import Lox.Proofs.Scope.Acceptance
import Lox.Proofs.Source.Spelling
import Lox.Session

namespace Lox

/-! ### The table of distances -/

namespace Scope.Locals

theorem getElem?_extend_of_not_mem {found : List (Nat × Nat)} {id : Nat}
    (h : id ∉ found.map Prod.fst) (locals : Locals) : (extend locals found)[id]? = locals[id]? := by
  induction found generalizing locals with
  | nil => rfl
  | cons entry rest ih =>
      rw [List.map_cons, List.mem_cons, not_or] at h
      have hrest := ih h.2 (locals.insert entry.1 entry.2)
      rw [extend, List.foldl_cons, ← extend, hrest, Std.TreeMap.getElem?_insert]
      simp [Ne.symm h.1]

theorem getElem?_extend_of_mem {found : List (Nat × Nat)} {entry : Nat × Nat}
    (hnodup : (found.map Prod.fst).Nodup) (h : entry ∈ found) (locals : Locals) :
    (extend locals found)[entry.1]? = some entry.2 := by
  induction found generalizing locals with
  | nil => simp at h
  | cons first rest ih =>
      rw [List.map_cons, List.nodup_cons] at hnodup
      rw [extend, List.foldl_cons, ← extend]
      rcases List.mem_cons.mp h with rfl | h
      · rw [getElem?_extend_of_not_mem hnodup.1, Std.TreeMap.getElem?_insert]
        simp
      · exact ih hnodup.2 h _

end Scope.Locals

namespace Session

open Scope

variable {session after : Session} {source : String} {program : List Stmt}
  {found : List (Nat × Nat)}

/-- What is known about the occurrences of all programs so far. -/
def resolution (session : Session) : Resolution :=
  ⟨session.locals, session.lastId⟩

/-- A program is accepted by a session, with these distances, and numbers of occurrences
are used up to that of the session behind it. -/
def Accepts (session : Session) (source : String) (program : List Stmt)
    (found : List (Nat × Nat)) (after : Session) : Prop :=
  session.analyse source = (.ok (program, found), after)

/-- What is known about the occurrences once those of an accepted program are added; the
session is the one behind it. -/
def resolutionWith (after : Session) (found : List (Nat × Nat)) : Resolution :=
  ⟨after.locals.extend found, after.lastId⟩

/-- The table of distances is about occurrences that were numbered. -/
def Bounded (session : Session) : Prop :=
  ∀ id, session.lastId < id → session.locals[id]? = none

/-! ### What acceptance is -/

/-- Reading a program uses up numbers of occurrences and changes nothing else; what is
read without a fault is a program. -/
theorem parse_ok (h : session.parse source = (.ok program, after)) :
    after = { session with lastId := after.lastId } ∧
      Grammar.Derives.Program session.lastId (Lexed.ofSource source).tokens after.lastId
        program := by
  obtain ⟨hresult, rfl⟩ := Prod.mk.inj h
  split at hresult
  · rename_i hnil
    obtain rfl := Except.ok.inj hresult
    obtain ⟨-, hread⟩ := List.append_eq_nil_iff.mp hnil
    exact ⟨rfl, Grammar.parse_sound hread⟩
  · exact absurd hresult (by simp)

/-- Reading alone decides what numbers are used up. -/
theorem analyse_session (session : Session) (source : String) :
    (session.analyse source).2 = (session.parse source).2 := by
  unfold Session.analyse
  split
  · rename_i h
    rw [h]
  · rename_i h
    dsimp only
    split <;> rw [h]

/-- The analysis has nothing to report about an accepted program. -/
theorem Accepts.read (h : session.Accepts source program found after) :
    session.parse source = (.ok program, after) ∧
      (Scope.analyse program).faults = [] ∧ found = (Scope.analyse program).locals := by
  unfold Accepts Session.analyse at h
  split at h
  · exact absurd h (by simp)
  · rename_i read middle hparse
    dsimp only at h
    split at h
    · rename_i hfaults
      simp only [Prod.mk.injEq, Except.ok.injEq] at h
      obtain ⟨⟨rfl, rfl⟩, rfl⟩ := h
      exact ⟨hparse, hfaults, rfl⟩
    · exact absurd h (by simp)

theorem Accepts.after_eq (h : session.Accepts source program found after) :
    after = { session with lastId := after.lastId } :=
  (parse_ok h.read.1).1

theorem Accepts.locals_eq (h : session.Accepts source program found after) :
    after.locals = session.locals := by
  rw [h.after_eq]

theorem Accepts.env_eq (h : session.Accepts source program found after) :
    after.env = session.env := by
  rw [h.after_eq]

theorem Accepts.memory_eq (h : session.Accepts source program found after) :
    after.memory = session.memory := by
  rw [h.after_eq]

theorem Accepts.numbered (h : session.Accepts source program found after) :
    Numbered session.lastId (Stmt.idsAll program) after.lastId :=
  (parse_ok h.read.1).2.numbered

theorem Accepts.formed (h : session.Accepts source program found after) :
    ∀ s ∈ program, s.Formed :=
  (parse_ok h.read.1).2.formed (Lexed.ofSource_spelled source)

/-! ### What acceptance means for the table of distances -/

/-- Each distance that was found is about an occurrence of the program, and about no
other one. -/
theorem Accepts.listed (h : session.Accepts source program found after) :
    (found.map Prod.fst).Sublist (Stmt.idsAll program) := by
  obtain ⟨-, -, rfl⟩ := h.read
  exact ofStmts_listed .topLevel [] program

/-- The occurrences of earlier programs are left alone. -/
theorem Accepts.extends (h : session.Accepts source program found after) :
    session.resolution.Extends (after.resolutionWith found) := by
  refine ⟨h.numbered.le, fun id hid => ?_⟩
  show (after.locals.extend found)[id]? = session.locals[id]?
  rw [h.locals_eq]
  refine Locals.getElem?_extend_of_not_mem ?_ _
  intro hmem
  have hid' := (h.numbered.within id (h.listed.subset hmem)).1
  have hid : id ≤ session.lastId := hid
  omega

theorem Accepts.bounded (h : session.Accepts source program found after)
    (hbounded : session.Bounded) :
    ∀ id, after.lastId < id → (after.locals.extend found)[id]? = none := by
  intro id hid
  rw [h.locals_eq, Locals.getElem?_extend_of_not_mem]
  · exact hbounded id (Nat.lt_of_le_of_lt h.numbered.le hid)
  · intro hmem
    have hid' := (h.numbered.within id (h.listed.subset hmem)).2
    omega

theorem Accepts.nodup (h : session.Accepts source program found after) :
    (found.map Prod.fst).Nodup :=
  h.listed.nodup h.numbered.nodup

/-- Every occurrence of an accepted program is resolved by what was found, whatever table
that is added to, as long as the occurrences are new to it. -/
theorem Accepts.resolvedBy (h : session.Accepts source program found after) (locals : Locals)
    (hnew : ∀ id, session.lastId < id → locals[id]? = none) :
    ResolvedStmts ⟨locals.extend found, after.lastId⟩ [] program := by
  have hagrees : Agrees ⟨locals.extend found, after.lastId⟩ (Stmt.idsAll program)
      (Scope.analyse program) := by
    have hnodup := h.nodup
    obtain ⟨-, -, rfl⟩ := h.read
    refine ⟨h.numbered.nodup, fun id hid => (h.numbered.within id hid).2,
      fun entry hentry => Locals.getElem?_extend_of_mem hnodup hentry _, fun id hid hnot => ?_⟩
    refine (Locals.getElem?_extend_of_not_mem hnot _).trans ?_
    exact hnew id (h.numbered.within id hid).1
  exact .of_accepted Suits.topLevel h.formed h.read.2.1 hagrees

/-- Every occurrence of an accepted program is resolved. -/
theorem Accepts.resolved (h : session.Accepts source program found after)
    (hbounded : session.Bounded) :
    ResolvedStmts (after.resolutionWith found) [] program := by
  rw [resolutionWith, h.locals_eq]
  exact h.resolvedBy session.locals hbounded

end Session

end Lox
