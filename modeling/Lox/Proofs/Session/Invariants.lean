/-
What holds all through a session.

Reading a program only uses up numbers, and so does a program that is refused.  A program
that is accepted is a run of the machine, and what that leaves behind is what the next one
starts with.
-/
import Lox.Proofs.Session.Reachable

namespace Lox.Session

open Machine

variable {session after : Session} {source : String} {program : List Stmt}
  {found : List (Nat × Nat)} {setting : Setting} {s : State}

/-- The session behind a run that has come to a state. -/
def leftBy (after : Session) (found : List (Nat × Nat)) (s : State) : Session :=
  ⟨after.lastId, after.locals.extend found, s.env, s.depth, s.memory⟩

/-- Running a program is reading it, unless it is accepted; then it is a run of the machine
as well. -/
theorem run_cases (session : Session) (clock : Nat → Float) (fuel : Nat) (sink : Sink)
    (source : String) :
    ((session.run clock fuel sink source).2.2 = (session.parse source).2 ∧
      ∃ faults, (session.run clock fuel sink source).1 = .refused faults) ∨
    ∃ program found after, session.Accepts source program found after ∧
      session.run clock fuel sink source =
        let final := Machine.run ⟨after.locals.extend found, clock⟩ fuel
          (after.starts program sink)
        (outcomeOf final, final.sink, after.leftBy found final) := by
  cases hresult : session.analyse source with
  | mk result after =>
      cases result with
      | error faults =>
          have hafter := analyse_session session source
          unfold Session.run
          rw [hresult] at hafter ⊢
          exact .inl ⟨hafter, faults, rfl⟩
      | ok accepted =>
          obtain ⟨program, found⟩ := accepted
          have haccepts : session.Accepts source program found after := hresult
          exact .inr ⟨program, found, after, haccepts, haccepts.run_eq clock fuel sink⟩

theorem ended_of_outcome (h : outcomeOf s ≠ .outOfFuel) : ∃ c, s.ended? = some c := by
  cases hended : s.ended? with
  | none => exact absurd (by rw [outcomeOf, hended]) h
  | some c => exact ⟨c, rfl⟩

theorem ended_of_failed {failure : Failure} (h : outcomeOf s = .failed failure) :
    s.ended? = some (.failed failure) := by
  unfold outcomeOf at h
  split at h
  · obtain rfl := Outcome.failed.inj h
    assumption
  · exact absurd h Outcome.noConfusion
  · exact absurd h Outcome.noConfusion

/-- Only a program that is not run is refused. -/
theorem outcomeOf_ne_refused (s : State) (faults : List Fault) :
    outcomeOf s ≠ .refused faults := by
  unfold outcomeOf
  split <;> exact Outcome.noConfusion

/-- **What reading and running keep holds of every session.** -/
theorem Reachable.invariant {I : Session → Prop} (h : session.Reachable) (hnew : I .new)
    (hparse : ∀ (session : Session) (source : String), session.Reachable → I session →
      I (session.parse source).2)
    (hrun : ∀ (session after : Session) (source : String) (program : List Stmt)
      (found : List (Nat × Nat)) (clock : Nat → Float) (fuel : Nat) (sink : Sink) (s : State)
      (c : Completion), session.Reachable → I session →
      session.Accepts source program found after →
      s = Machine.run ⟨after.locals.extend found, clock⟩ fuel (after.starts program sink) →
      s.ended? = some c → I (after.leftBy found s)) : I session := by
  induction h with
  | new => exact hnew
  | parse h source ih => exact hparse _ source h ih
  | @run session h clock fuel sink source hended ih =>
      rcases session.run_cases clock fuel sink source with
        ⟨hread, -⟩ | ⟨program, found, after, haccepts, hrunning⟩
      · rw [hread]
        exact hparse session source h ih
      · rw [hrunning] at hended ⊢
        obtain ⟨c, hc⟩ := ended_of_outcome hended
        exact hrun session after source program found clock fuel sink _ c h ih haccepts rfl hc

/-- What every step keeps holds all through a run. -/
theorem run_invariant {I : State → Prop} (hstep : ∀ s, I s → I (step setting s)) (steps : Nat)
    (h : I s) : I (Machine.run setting steps s) := by
  induction steps generalizing s with
  | zero => exact h
  | succ steps ih =>
      rw [run_succ]
      exact ih (hstep s h)

end Lox.Session
