/-
The states that sessions pass through.

A session starts out new, programs are read in it and programs are run in it.  As long
as each run comes to its end, the next one finds everything in order: no frame but that
of the globals is open, and what earlier programs have left behind is resolved in the
larger table of distances too.
-/
import Lox.Proofs.Machine.Preservation
import Lox.Proofs.Session.Accepted

namespace Lox.Session

open Scope Machine

variable {session after : Session} {source : String} {program : List Stmt}
  {found : List (Nat × Nat)} {setting : Setting} {s : State}

/-- Sessions that reading and running programs can lead to. -/
inductive Reachable : Session → Prop
  | new : Reachable .new
  | parse {session : Session} (h : Reachable session) (source : String) :
      Reachable (session.parse source).2
  | run {session : Session} (h : Reachable session) (clock : Nat → Float) (fuel : Nat)
      (sink : Sink) (source : String)
      (hended : (session.run clock fuel sink source).1 ≠ .outOfFuel) :
      Reachable (session.run clock fuel sink source).2.2

/-- The state in which an accepted program is about to be run. -/
def starts (after : Session) (program : List Stmt) (sink : Sink) : State :=
  .start program after.env after.depth after.memory sink

/-- A state that the run of an accepted program passes through. -/
def Visited (setting : Setting) (s : State) : Prop :=
  ∃ (session after : Session) (source : String) (program : List Stmt) (found : List (Nat × Nat))
    (clock : Nat → Float) (sink : Sink) (steps : Nat),
    session.Reachable ∧ session.Accepts source program found after ∧
      setting = ⟨after.locals.extend found, clock⟩ ∧
      s = Machine.run setting steps (after.starts program sink)

/-- Running an accepted program is running the machine. -/
theorem Accepts.run_eq (h : session.Accepts source program found after) (clock : Nat → Float)
    (fuel : Nat) (sink : Sink) :
    session.run clock fuel sink source =
      let final := Machine.run ⟨after.locals.extend found, clock⟩ fuel (after.starts program sink)
      (outcomeOf final, final.sink,
        ⟨after.lastId, after.locals.extend found, final.env, final.depth, final.memory⟩) := by
  unfold Session.run
  rw [h]
  rfl

/-! ### What the next program finds -/

/-- Everything is in order for a program to be run. -/
structure Sound (session : Session) : Prop where
  bounded : session.Bounded
  env : session.env = Memory.globals
  size : 0 < session.memory.frames.size
  memory : session.memory.Scoped session.resolution

theorem sound_new : Sound .new := by
  refine ⟨fun id _ => by simp [Session.new], rfl, by decide, fun a name v hv => ?_,
    fun a name v hv => ?_⟩
  · have hframe : Session.new.memory.frame a = if a = 0 then [("clock", .clock)] else [] := by
      cases a <;> rfl
    rw [hframe] at hv
    split at hv
    · rw [Bindings.get?] at hv
      split at hv
      · rename_i hname
        obtain rfl := Option.some.inj hv
        subst hname
        exact ⟨trivial, Value.fits_of_ordinary ⟨by decide, by decide⟩ _⟩
      · exact absurd hv (by simp)
    · exact absurd hv (by simp)
  · exact absurd hv (by simp [Session.new, Memory.initial, Memory.field?])

/-- Numbers that are used up without a program are as good as any. -/
theorem Sound.parse (h : session.Sound) (source : String) : (session.parse source).2.Sound := by
  have hle : session.lastId ≤ (session.parse source).2.lastId := Grammar.parse_lastId_le _ _ _
  have hext : session.resolution.Extends (session.parse source).2.resolution :=
    ⟨hle, fun _ _ => rfl⟩
  exact ⟨fun id hid => h.bounded id (Nat.lt_of_le_of_lt hle hid), h.env, h.size,
    h.memory.extend hext⟩

/-- An accepted program starts in order. -/
theorem Sound.starts (h : session.Sound) (haccepts : session.Accepts source program found after)
    (sink : Sink) : (after.starts program sink).Sound (after.resolutionWith found) := by
  have hcurrent : Current session.memory [] 0 Memory.globals := by
    refine ⟨⟨.globals h.size, fun name distance hdistance => ?_⟩, rfl, fun hnil => absurd rfl hnil⟩
    exact absurd hdistance (by simp [Scopes.distance?_nil])
  rw [Session.starts, haccepts.env_eq, haccepts.memory_eq, h.env]
  exact ⟨h.memory.extend haccepts.extends, [], 0, hcurrent,
    .complete trivial Scopes.settled_nil (.sequence (haccepts.resolved h.bounded) .program)⟩

/-- However far the run of an accepted program has come, everything is in order. -/
theorem Sound.runs (h : session.Sound) (haccepts : session.Accepts source program found after)
    (clock : Nat → Float) (sink : Sink) (steps : Nat) :
    (Machine.run ⟨after.locals.extend found, clock⟩ steps (after.starts program sink)).Sound
      (after.resolutionWith found) :=
  run_sound rfl steps (h.starts haccepts sink)

/-- Only the frame of the globals is open when a run has ended. -/
theorem env_of_ended {r : Resolution} {c : Completion} (h : s.Sound r) (hended : s.ended? = some c) :
    s.env = Memory.globals := by
  obtain ⟨-, scopes, top, hcurrent, hproceeds⟩ := h
  obtain ⟨hcontrol, hpending⟩ := ended?_eq_some_iff.mp hended
  have htop : top = 0 := by
    rw [hcontrol, hpending] at hproceeds
    cases hproceeds with
    | complete _ _ h => exact nomatch h
    | leave _ h =>
        cases h with
        | program => rfl
    | fail _ _ h =>
        cases h with
        | value h => exact nomatch h
        | statement h => exact nomatch h
        | leave h =>
            cases h with
            | program => rfl
  subst htop
  obtain ⟨a, outer, henv, -⟩ := hcurrent.framed.head
  have hframed := hcurrent.framed
  have hhead := hcurrent.head
  rw [henv] at hframed hhead ⊢
  obtain rfl : a = 0 := Option.some.inj hhead
  rw [hframed.eq_globals.2]
  rfl

theorem sound_after {c : Completion} (haccepts : session.Accepts source program found after)
    (h : session.Sound) (hsound : s.Sound (after.resolutionWith found))
    (hended : s.ended? = some c) :
    Sound ⟨after.lastId, after.locals.extend found, s.env, s.depth, s.memory⟩ := by
  refine ⟨haccepts.bounded h.bounded, env_of_ended hsound hended, ?_, hsound.memory⟩
  obtain ⟨-, scopes, top, hcurrent, -⟩ := hsound
  exact Nat.zero_lt_of_lt hcurrent.lt_size

/-- After a run that has ended, the next program finds everything in order. -/
theorem Sound.run (h : session.Sound) (clock : Nat → Float) (fuel : Nat) (sink : Sink)
    (source : String) (hended : (session.run clock fuel sink source).1 ≠ .outOfFuel) :
    (session.run clock fuel sink source).2.2.Sound := by
  cases hresult : session.analyse source with
  | mk result after =>
      cases result with
      | error faults =>
          have hafter := analyse_session session source
          rw [hresult] at hafter
          unfold Session.run
          rw [hresult]
          exact hafter ▸ h.parse source
      | ok accepted =>
          obtain ⟨program, found⟩ := accepted
          have haccepts : session.Accepts source program found after := hresult
          have hsound := h.runs haccepts clock sink fuel
          rw [haccepts.run_eq] at hended ⊢
          dsimp only [outcomeOf] at hended
          split at hended
          · exact sound_after haccepts h hsound (by assumption)
          · exact sound_after haccepts h hsound (by assumption)
          · exact absurd rfl hended

/-- **Everything is in order in every session.** -/
theorem Reachable.sound (h : session.Reachable) : session.Sound := by
  induction h with
  | new => exact sound_new
  | parse _ source ih => exact ih.parse source
  | run _ clock fuel sink source hended ih => exact ih.run clock fuel sink source hended

/-- **Everything is in order in every state that a session passes through.** -/
theorem Visited.sound (h : Visited setting s) :
    ∃ r : Resolution, setting.locals = r.locals ∧ s.Sound r := by
  obtain ⟨session, after, source, program, found, clock, sink, steps, hreachable, haccepts,
    rfl, rfl⟩ := h
  exact ⟨after.resolutionWith found, rfl, hreachable.sound.runs haccepts clock sink steps⟩

end Lox.Session
