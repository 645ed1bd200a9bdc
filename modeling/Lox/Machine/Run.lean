/-
Runs of the machine.

A run is as many steps as the fuel allows, and stops early at a state that has ended.
Fuel is nothing but a bound on the steps: once a run has ended, more of it changes
nothing (`run_of_ended`), and running in two stages is running once (`run_add`).
-/
import Lox.Machine.Step

namespace Lox.Machine

/-- Runs until the end, or for so many steps. -/
def run (setting : Setting) : Nat → State → State
  | 0, s => s
  | fuel + 1, s =>
      match s.ended? with
      | some _ => s
      | none => run setting fuel (step setting s)

/-- More steps than any run takes that ends within a lifetime. -/
def defaultFuel : Nat := Nat.pow 2 62

/-! ### Fuel is only a bound -/

variable {setting : Setting}

/-- A state that has ended has a finished statement and nothing pending. -/
theorem ended?_eq_some_iff {s : State} {c : Completion} :
    s.ended? = some c ↔ s.control = .complete c ∧ s.pending = [] := by
  unfold State.ended?
  split
  · rename_i c' hc hp
    simp [hc, hp]
  · rename_i h
    constructor
    · intro hc
      simp at hc
    · rintro ⟨hc, hp⟩
      exact absurd hp (h c hc)

theorem step_of_ended {s : State} {c : Completion} (h : s.ended? = some c) :
    step setting s = s := by
  obtain ⟨hc, hp⟩ := ended?_eq_some_iff.mp h
  unfold step
  rw [hc, hp]

theorem run_of_ended {s : State} {c : Completion} (h : s.ended? = some c) (fuel : Nat) :
    run setting fuel s = s := by
  cases fuel with
  | zero => rfl
  | succ fuel => rw [run, h]

theorem run_succ (fuel : Nat) (s : State) :
    run setting (fuel + 1) s = run setting fuel (step setting s) := by
  cases h : s.ended? with
  | none => rw [run, h]
  | some c => rw [run_of_ended h, step_of_ended h, run_of_ended h]

theorem run_add (m n : Nat) (s : State) :
    run setting (m + n) s = run setting n (run setting m s) := by
  induction m generalizing s with
  | zero => rw [Nat.zero_add]; rfl
  | succ m ih => rw [Nat.succ_add, run_succ, ih, run_succ]

/-- The last step of a run is one more after the others. -/
theorem run_step (steps : Nat) (s : State) :
    run setting (steps + 1) s = step setting (run setting steps s) :=
  (run_add steps 1 s).trans (run_succ 0 _)

/-- What a run has come to at its end, it comes to with any more fuel. -/
theorem run_mono {m n : Nat} {s : State} {c : Completion} (hmn : m ≤ n)
    (h : (run setting m s).ended? = some c) : run setting n s = run setting m s := by
  obtain ⟨k, rfl⟩ := Nat.exists_eq_add_of_le hmn
  rw [run_add, run_of_ended h]

end Lox.Machine
