/-
Nothing that is evaluated, executed or called leaves frames open or calls active.

A session starts with only the frame of the globals open and with no active call, and so does
each program that is run in it: everything on the way, down to a single expression, ends with
the frames and the count that it was begun with, also where it ends in a jump or in a failure.
-/
import Lox.Proofs.Machine.Activations
import Lox.Proofs.Session.Jumps

namespace Lox.Session

open Machine

variable {session after : Session} {source : String} {program : List Stmt}
  {found : List (Nat × Nat)} {setting : Setting} {s : State}

/-- No frame is open but that of the globals, and no call is active. -/
structure Rests (session : Session) : Prop where
  env : session.env = Memory.globals
  depth : session.depth = 0

/-- A run begins with nothing to put back but what the session had. -/
theorem Rests.starts (h : session.Rests) (haccepts : session.Accepts source program found after)
    (sink : Sink) : (after.starts program sink).RestsOn Memory.globals 0 := by
  have hdepth : after.depth = 0 := by
    rw [haccepts.after_eq]
    exact h.depth
  exact ⟨haccepts.env_eq.trans h.env, hdepth, hdepth.trans_le (Nat.zero_le _)⟩

theorem Reachable.rests (h : session.Reachable) : session.Rests := by
  refine h.invariant ⟨rfl, rfl⟩ (fun _ _ _ h => ⟨h.env, h.depth⟩) ?_
  rintro session after source program found clock fuel sink s c - h haccepts rfl hended
  have hrests : (Machine.run ⟨after.locals.extend found, clock⟩ fuel
      (after.starts program sink)).RestsOn Memory.globals 0 := run_restsOn (h.starts haccepts sink) fuel
  obtain ⟨-, hpending⟩ := ended?_eq_some_iff.mp hended
  have henv := hrests.env
  have hdepth := hrests.depth
  rw [hpending] at henv hdepth
  exact ⟨henv, hdepth⟩

/-- In every state the notes on the stack lead back to the globals, there is one for each
active call, and there are never too many. -/
theorem Visited.restsOn (h : Visited setting s) : s.RestsOn Memory.globals 0 := by
  obtain ⟨session, after, source, program, found, clock, sink, steps, hreachable, haccepts,
    rfl, rfl⟩ := h
  exact run_restsOn (hreachable.rests.starts haccepts sink) steps

/-- A run that goes on from a state passes through further ones. -/
theorem Visited.run (h : Visited setting s) (steps : Nat) :
    Visited setting (Machine.run setting steps s) := by
  obtain ⟨session, after, source, program, found, clock, sink, before, hreachable, haccepts,
    rfl, rfl⟩ := h
  exact ⟨session, after, source, program, found, clock, sink, before + steps, hreachable, haccepts,
    rfl, (run_add before steps _).symm⟩

/-- What is begun in a state that a session passes through, on top of a stack: once that is all
that is left, it is as it was, with the same frames open and as many active calls. -/
theorem Visited.restored (h : Visited setting s) {valued : Bool} {base : List Pending}
    (hbegins : s.Begins valued base) {steps : Nat}
    (habove : ∀ i < steps, (Machine.run setting i s).Above base.length) {t : State}
    (ht : Machine.run setting steps s = t) (hleft : ¬t.Above base.length) :
    t.pending = base ∧ t.control.Ends valued ∧ t.env = s.env ∧ t.depth = s.depth := by
  obtain ⟨top, hpending, henv, hcalls⟩ := hbegins.top
  let core : State := { s with pending := top }
  have hs : s = core.under base := by
    rw [State.under, ← hpending]
  have hcore : core.RestsOn s.env s.depth := by
    refine ⟨henv, ?_, h.restsOn.bounded⟩
    show s.depth = s.depth + callsOn top
    rw [hcalls, Nat.add_zero]
  have hexpects := hbegins.expects h.orderly.nested
  have hnested : t.Nested := ht ▸ (h.run steps).orderly.nested
  rw [hs] at ht habove
  obtain ⟨hbase, hbegun, henv, hdepth⟩ := restored_of_left hcore ht habove hleft
  rw [← hbase] at hexpects
  exact ⟨hbase, hnested.ends hbegun hexpects, henv, hdepth⟩

/-- **Whatever is done ends with the frames and the active calls that it was begun with.**

  * Begin with a state that a session passes through, in which an expression, a statement, a
    row of statements or a call is begun on top of a stack.  The first state in which only that
    stack is left has it unchanged; an expression or a call has ended in a value or a failure, a
    statement in any way that it can; and the same frames are open and as many calls are active
    as in the beginning.
  * Before and after each run of a session only the frame of the globals is open, and no call is
    active, however the runs have ended. -/
theorem frames_and_calls_restored :
    (∀ (setting : Setting) (s t : State) (valued : Bool) (base : List Pending) (steps : Nat),
      Visited setting s → s.Begins valued base →
      (∀ i < steps, (Machine.run setting i s).Above base.length) →
      Machine.run setting steps s = t → ¬t.Above base.length →
      t.pending = base ∧ t.control.Ends valued ∧ t.env = s.env ∧ t.depth = s.depth) ∧
    ∀ session : Session, session.Reachable → session.env = Memory.globals ∧ session.depth = 0 :=
  ⟨fun _ _ _ _ _ _ hvisited hbegins habove ht hleft => hvisited.restored hbegins habove ht hleft,
    fun _ hreachable => ⟨hreachable.rests.env, hreachable.rests.depth⟩⟩

/-- A call fails in a block inside of its body, with three frames open and one call active; after
that one frame is open and none is active, as before. -/
theorem failed_call_restored : ∃ setting s t base, Visited setting s ∧ s.Begins true base ∧
    (∀ i < 13, (Machine.run setting i s).Above base.length) ∧ Machine.run setting 13 s = t ∧
    ¬t.Above base.length ∧ (Machine.run setting 7 s).env = [2, 1, 0] ∧
    (Machine.run setting 7 s).depth = 1 ∧
    t.control = .complete (.failed ⟨⟨.minus, "-", 1⟩, .operandNotNumber⟩) ∧ s.env = [0] ∧
    t.env = s.env ∧ t.depth = s.depth := by
  let f : FunctionDecl := ⟨⟨.identifier, "f", 1⟩, [], [.block [.expression
    (.unary ⟨.minus, "-", 1⟩ (.literal .nil))]]⟩
  let paren : Token := ⟨.rightParen, ")", 1⟩
  let program : List Stmt := [
    .function f, .expression (.call (.use ⟨⟨.identifier, "f", 1⟩, 1⟩) paren [])]
  let after : Session := { Session.new with lastId := 1 }
  have haccepts : Session.new.Accepts "fun f() \x7b \x7b -nil; \x7d \x7d f();" program []
      after := by
    unfold Accepts
    cbv
  let setting : Setting := ⟨after.locals.extend [], fun _ => 0⟩
  let s : State := Machine.run setting 6 (after.starts program (.working ""))
  let base : List Pending := [.discard, .sequence []]
  have hvisited : Visited setting s :=
    ⟨.new, after, _, program, [], _, .working "", 6, .new, haccepts, rfl, rfl⟩
  have hcontrol : s.control = .value (.function 0 ⟨f, [0], false⟩) := by cbv
  have hpending : s.pending = .callee paren [] :: base := by cbv
  have hbegins : s.Begins true base := .call (.plain hcontrol hpending)
  have habove : ∀ i < 13, (Machine.run setting i s).Above base.length := by decide
  have hleft : ¬(Machine.run setting 13 s).Above base.length := by decide
  obtain ⟨-, -, henv, hdepth⟩ :=
    frames_and_calls_restored.1 setting s _ true base 13 hvisited hbegins habove rfl hleft
  exact ⟨setting, s, _, base, hvisited, hbegins, habove, rfl, hleft, by cbv, by cbv, by cbv, by cbv,
    henv, hdepth⟩

end Lox.Session
