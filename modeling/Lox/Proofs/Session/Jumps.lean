/-
No jump leads too far.

A `break` belongs to a loop and a `return` to a call.  In a session that refuses every
program in which one has nothing to belong to, no statement of a program ever ends in a jump,
so that none behind it is skipped; no `break` comes out of the body of a function; and each
`break` ends the loop that it stands in.
-/
import Mathlib
import Lox.Proofs.Machine.Nesting
import Lox.Proofs.Session.Invariants

namespace Lox.Session

open Scope Machine

variable {session after : Session} {source : String} {program : List Stmt}
  {found : List (Nat × Nat)} {setting : Setting} {s : State}

/-- All functions that a session has left behind are confined. -/
def Confined (session : Session) : Prop :=
  session.memory.All fun closure => closure.declaration.Confined

/-- What a run of an accepted program keeps. -/
structure Orderly (s : State) : Prop where
  nested : s.Nested
  confined : s.Confined

theorem Orderly.step (h : Orderly s) : Orderly (step setting s) :=
  ⟨step_nested h.nested h.confined, step_confined h.nested h.confined⟩

/-- An accepted program has no jump that leads out of it. -/
theorem Accepts.confined (h : session.Accepts source program found after) :
    ∀ s ∈ program, s.Confined false false :=
  @confined_of_accepted_row .topLevel [] program h.read.2.1

theorem Confined.starts (h : session.Confined)
    (haccepts : session.Accepts source program found after) (sink : Sink) :
    Orderly (after.starts program sink) := by
  refine ⟨.begun (.program haccepts.confined), ?_, trivial, ?_⟩
  · show after.memory.All _
    rw [haccepts.memory_eq]
    exact h
  · exact List.forall_mem_singleton.mpr trivial

theorem Reachable.confined (h : session.Reachable) : session.Confined := by
  refine h.invariant (I := Confined) Memory.All.initial (fun _ _ _ h => h) ?_
  rintro session after source program found clock fuel sink s c - h haccepts rfl -
  have horderly : Orderly (Machine.run ⟨after.locals.extend found, clock⟩ fuel
      (after.starts program sink)) :=
    run_invariant (I := Orderly) (fun _ => Orderly.step) fuel (h.starts haccepts sink)
  exact horderly.confined.memory

theorem Visited.orderly (h : Visited setting s) : Orderly s := by
  obtain ⟨session, after, source, program, found, clock, sink, steps, hreachable, haccepts,
    rfl, rfl⟩ := h
  exact run_invariant (I := Orderly) (fun _ => Orderly.step) steps
    (hreachable.confined.starts haccepts sink)

/-! ### Where jumps end -/

/-- No jump comes out of a statement of the program. -/
theorem Orderly.top (h : Orderly s) {c : Completion} (hcontrol : s.control = .complete c)
    (hpending : s.pending = [] ∨ ∃ rest, s.pending = [.sequence rest]) :
    c = .normal ∨ ∃ failure, c = .failed failure := by
  have hnested := h.nested
  unfold State.Nested at hnested
  rw [hcontrol] at hnested
  generalize s.pending = pending at hnested hpending
  cases hnested with
  | begun _ => exact .inl rfl
  | fell _ => exact .inr ⟨_, rfl⟩
  | done hnest hc =>
      rcases hpending with hpending | ⟨rest, hpending⟩
      · exact absurd hpending hnest.pending_ne_nil
      · obtain ⟨rfl, rfl⟩ := hnest.bottom hpending
        exact hc.no_jump
  | left hrow hc =>
      rcases hpending with rfl | ⟨rest, rfl⟩
      · cases hrow with
        | program _ => exact hc.no_jump
      · cases hrow

/-- No `break` comes out of the body of a function. -/
theorem Orderly.body (h : Orderly s) {c : Completion} (hcontrol : s.control = .complete c)
    {env : Env} {answer : Answer} {below : List Pending}
    (hpending : s.pending = .leaveCall env answer :: below ∨
      ∃ rest, s.pending = .sequence rest :: .leaveCall env answer :: below) :
    c = .normal ∨ (∃ v, c = .returned v) ∨ ∃ failure, c = .failed failure := by
  have hnested := h.nested
  unfold State.Nested at hnested
  rw [hcontrol] at hnested
  generalize s.pending = pending at hnested hpending
  cases hnested with
  | begun _ => exact .inl rfl
  | fell _ => exact .inr (.inr ⟨_, rfl⟩)
  | done hnest hc =>
      rcases hpending with hpending | ⟨rest, hpending⟩
      · exact absurd hpending hnest.pending_ne_leaveCall
      · obtain rfl := hnest.body_of_call hpending
        exact hc.no_break
  | left hrow hc =>
      rcases hpending with rfl | ⟨rest, rfl⟩
      · cases hrow with
        | call _ _ => exact hc.no_break
      · cases hrow

/-- **No jump leads past its boundary.**  In every state that a session passes through:

  * a statement of the program has ended normally or in a failure, and unless that is a
    failure the next statement is executed;
  * the body of a function has ended normally, with a `return` or in a failure;
  * a `break` that is about to be executed ends the innermost loop around it, which is in
    the same function, and leaves the blocks in between. -/
theorem no_jump_leaks (h : Visited setting s) :
    (∀ c, s.control = .complete c → (s.pending = [] ∨ ∃ rest, s.pending = [.sequence rest]) →
      c = .normal ∨ ∃ failure, c = .failed failure) ∧
    (∀ c next rest, s.control = .complete c → s.pending = [.sequence (next :: rest)] →
      (∀ failure, c ≠ .failed failure) →
      step setting s = { s with control := .execute next, pending := [.sequence rest] }) ∧
    (∀ c env answer below, s.control = .complete c →
      (s.pending = .leaveCall env answer :: below ∨
        ∃ rest, s.pending = .sequence rest :: .leaveCall env answer :: below) →
      c = .normal ∨ (∃ v, c = .returned v) ∨ ∃ failure, c = .failed failure) ∧
    ∀ keyword, s.control = .execute (.breakLoop keyword) →
      ∃ condition body tasks below,
        s.pending = tasks ++ .loopBody condition body :: below ∧
        Inside body (.breakLoop keyword) tasks ∧
        Machine.run setting (tasks.length + 2) s
          = { s with
              control := .complete .normal
              pending := below
              env := outerEnv s.env tasks } := by
  have horderly := h.orderly
  refine ⟨fun c => horderly.top, fun c next rest hcontrol hpending hfailed => ?_,
    fun c _ _ _ hcontrol => horderly.body hcontrol,
    fun keyword => break_ends_loop horderly.nested⟩
  rcases horderly.top hcontrol (.inr ⟨_, hpending⟩) with rfl | ⟨failure, rfl⟩
  · unfold step
    rw [hcontrol, hpending]
    rfl
  · exact absurd rfl (hfailed failure)

/-- A `break` in the loop of a function that was called ends that loop. -/
theorem called_loop_broken : ∃ setting s keyword, Visited setting s ∧
    s.control = .execute (.breakLoop keyword) ∧
    ∃ condition body tasks below,
      s.pending = tasks ++ .loopBody condition body :: below ∧
      Inside body (.breakLoop keyword) tasks ∧
      Machine.run setting (tasks.length + 2) s
        = { s with
            control := .complete .normal
            pending := below
            env := outerEnv s.env tasks } := by
  let program : List Stmt := [
    .function ⟨⟨.identifier, "f", 1⟩, [], [.whileLoop (.literal (.bool true))
      (.block [.breakLoop ⟨.kwBreak, "break", 1⟩])]⟩,
    .expression (.call (.use ⟨⟨.identifier, "f", 1⟩, 1⟩) ⟨.rightParen, ")", 1⟩ [])]
  let after : Session := { Session.new with lastId := 1 }
  have haccepts : Session.new.Accepts
      "fun f() \x7b while (true) \x7b break; \x7d \x7d f();" program [] after := by
    unfold Accepts
    cbv
  let setting : Setting := ⟨after.locals.extend [], fun _ => 0⟩
  let s : State := Machine.run setting 13 (after.starts program (.working ""))
  have hvisited : Visited setting s :=
    ⟨.new, after, _, program, [], _, .working "", 13, .new, haccepts, rfl, rfl⟩
  have hcontrol : s.control = .execute (.breakLoop ⟨.kwBreak, "break", 1⟩) := by cbv
  clear_value s
  exact ⟨setting, s, _, hvisited, hcontrol, (no_jump_leaks hvisited).2.2.2 _ hcontrol⟩

end Lox.Session
