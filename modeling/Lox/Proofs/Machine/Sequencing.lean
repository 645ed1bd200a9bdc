/-
Programs with more statements behind them.

Two things are different for a program when more statements follow it.  The table of
distances is larger, but the occurrences of the program have the same distances in it, and
no other ones are looked up before the program is done (`run_extend`).  And the stack has
more at its very bottom, which is looked at only when the program is done: a run that ends
normally comes there to the point where the statements behind it are about to be run
(`run_continues`).

What was written stays: a step may add to the output and does nothing else with it
(`run_prints`).
-/
import Lox.Proofs.Machine.Preservation
import Lox.Proofs.Machine.Stack

namespace Lox.Machine

open Scope

/-! ### More occurrences -/

section Extends

variable {r r' : Resolution} {s : State} {clock : Nat → Float}

theorem lookup_extend {occurrence : Occurrence} (hext : r.Extends r')
    (hknown : occurrence.id ≤ r.lastId) :
    lookup ⟨r'.locals, clock⟩ s occurrence = lookup ⟨r.locals, clock⟩ s occurrence := by
  unfold lookup
  dsimp only
  rw [hext.locals _ hknown]

theorem assign_extend {target : Occurrence} {v : Value} (hext : r.Extends r')
    (hknown : target.id ≤ r.lastId) :
    assign ⟨r'.locals, clock⟩ s target v = assign ⟨r.locals, clock⟩ s target v := by
  unfold assign locate
  dsimp only
  rw [hext.locals _ hknown]

theorem inheritedMethod_extend {keyword : Occurrence} {method : Token} (hext : r.Extends r')
    (hknown : keyword.id ≤ r.lastId) :
    inheritedMethod ⟨r'.locals, clock⟩ s keyword method
      = inheritedMethod ⟨r.locals, clock⟩ s keyword method := by
  unfold inheritedMethod
  dsimp only
  rw [hext.locals _ hknown]

/-- Where only resolved occurrences are met, it does not matter that there are more. -/
theorem step_extend (h : s.Sound r) (hext : r.Extends r') :
    step ⟨r'.locals, clock⟩ s = step ⟨r.locals, clock⟩ s := by
  obtain ⟨-, scopes, top, -, hproceeds⟩ := h
  obtain ⟨control, pending, env, depth, memory, sink⟩ := s
  cases hproceeds with
  | evaluate h hpending =>
      cases h with
      | use h _ _ => exact lookup_extend hext h.known
      | this _ h _ => exact lookup_extend hext h.known
      | super _ h _ _ => exact inheritedMethod_extend hext h.known
      | _ => rfl
  | value hv hpending =>
      cases hpending with
      | assignment htarget _ _ => exact assign_extend hext htarget.known
      | @callee _ _ _ arguments => cases arguments <;> rfl
      | @argument _ _ _ _ _ after => cases after <;> rfl
      | _ => rfl
  | execute _ _ _ => rfl
  | complete _ _ _ => cases pending <;> rfl
  | leave _ _ => cases pending <;> rfl
  | fail _ _ _ => cases pending <;> rfl

/-- Nor does it matter to a run. -/
theorem run_extend (h : s.Sound r) (hext : r.Extends r') (fuel : Nat) :
    run ⟨r'.locals, clock⟩ fuel s = run ⟨r.locals, clock⟩ fuel s := by
  induction fuel generalizing s with
  | zero => rfl
  | succ fuel ih =>
      rw [run_succ, run_succ, step_extend h hext]
      exact ih (step_sound rfl h)

end Extends

/-! ### More statements -/

variable {setting : Setting}

/-- The bottom of the stack holds the rest of a program, and maybe more behind it: either both
go on with it in the same way, or the program is done, or it is left early. -/
theorem step_bottom (setting : Setting) {core : State} (h : ¬core.Occupied) (rest : List Stmt) :
    (∃ (core' : State) (rest' : List Stmt), ∀ behind,
      step setting (core.under [.sequence (rest ++ behind)])
        = core'.under [.sequence (rest' ++ behind)]) ∨
      (core.control = .complete .normal ∧ core.pending = [] ∧ rest = []) ∨
      ∃ c, c ≠ .normal ∧ (step setting (core.under [.sequence rest])).ended? = some c := by
  obtain ⟨control, pending, env, depth, memory, sink⟩ := core
  obtain rfl : pending = [] := Classical.byContradiction fun hpending => h (.inl hpending)
  cases control with
  | evaluate e => exact absurd (.inr (.inl ⟨e, rfl⟩)) h
  | execute statement => exact absurd (.inr (.inr ⟨statement, rfl⟩)) h
  | value v => exact .inl ⟨⟨.complete .normal, [], env, depth, memory, sink⟩, rest, fun _ => rfl⟩
  | complete c =>
      cases c with
      | normal =>
          cases rest with
          | nil => exact .inr (.inl ⟨rfl, rfl, rfl⟩)
          | cons next rest =>
              exact .inl ⟨⟨.execute next, [], env, depth, memory, sink⟩, rest, fun _ => rfl⟩
      | _ => exact .inr (.inr ⟨_, Completion.noConfusion, rfl⟩)

/-- The state in which other statements are about to be run where a run has come to. -/
def State.restart (s : State) (program : List Stmt) : State :=
  .start program s.env s.depth s.memory s.sink

/-- Where the bottom of the stack is the rest of a program, what stands behind that is about to
be run when the run has ended. -/
theorem run_bottom (behind : List Stmt) (fuel : Nat) (core : State) (rest : List Stmt)
    (h : (run setting fuel (core.under [.sequence rest])).ended? = some .normal) :
    ∃ steps, run setting steps (core.under [.sequence (rest ++ behind)])
      = (run setting fuel (core.under [.sequence rest])).restart behind := by
  induction fuel generalizing core rest with
  | zero =>
      obtain ⟨-, hpending⟩ := ended?_eq_some_iff.mp h
      exact absurd hpending (List.append_ne_nil_of_right_ne_nil _ (List.cons_ne_nil _ _))
  | succ fuel ih =>
      rw [run_succ] at h ⊢
      by_cases hoccupied : core.Occupied
      · rw [step_under hoccupied] at h ⊢
        obtain ⟨steps, hsteps⟩ := ih _ _ h
        exact ⟨steps + 1, by rw [run_succ, step_under hoccupied, hsteps]⟩
      rcases step_bottom setting hoccupied rest with
        ⟨core', rest', hstep⟩ | ⟨hcontrol, hpending, rfl⟩ | ⟨c, hc, hended⟩
      · have hplain := hstep []
        rw [List.append_nil, List.append_nil] at hplain
        rw [hplain] at h ⊢
        obtain ⟨steps, hsteps⟩ := ih _ _ h
        exact ⟨steps + 1, by rw [run_succ, hstep, hsteps]⟩
      · obtain ⟨control, pending, env, depth, memory, sink⟩ := core
        obtain rfl : control = .complete .normal := hcontrol
        obtain rfl : pending = [] := hpending
        have hdone : (step setting (State.start [] env depth memory sink)).ended?
            = some .normal := rfl
        refine ⟨0, Eq.symm ?_⟩
        exact congrArg (fun s => s.restart behind) (run_of_ended hdone fuel)
      · rw [run_of_ended hended, hended] at h
        exact absurd (Option.some.inj h) hc

/-- **What stands behind a program is run where the program has ended.** -/
theorem run_continues {program : List Stmt} {env : Env} {depth : Nat} {memory : Memory}
    {sink : Sink} (behind : List Stmt) (fuel : Nat)
    (h : (run setting fuel (.start program env depth memory sink)).ended? = some .normal) :
    ∃ steps, run setting steps (.start (program ++ behind) env depth memory sink)
      = (run setting fuel (.start program env depth memory sink)).restart behind :=
  run_bottom behind fuel ⟨.complete .normal, [], env, depth, memory, sink⟩ program h

/-! ### The output -/

theorem Sink.nothing_written {sink after : Sink} (h : after = sink) :
    ∃ text, after.text = sink.text ++ text :=
  ⟨"", by rw [h, String.append_empty]⟩

/-- What comes through of a line comes behind what was written before. -/
theorem Sink.writeLine_text (sink : Sink) (line : String) :
    ∃ text, (sink.writeLine line).2.text = sink.text ++ text :=
  ⟨_, rfl⟩

section Output

variable (s : State)

theorem Settles.sink_eq {s next : State} (h : Settles s next) : next.sink = s.sink := by
  cases h <;> rfl

theorem Called.sink_eq {s next : State} {callee : Value} {paren : Token} {arguments : List Value}
    (h : Called setting s paren arguments callee next) : next.sink = s.sink := by
  cases h <;> rfl

theorem Finished.sink_eq {s next : State} {name : Token} {superclass : Option Class}
    {methods : List FunctionDecl} (h : Finished s name superclass methods next) :
    next.sink = s.sink := by
  cases h <;> rfl

theorem evaluate_sink (e : Expr) : (evaluate setting s e).sink = s.sink := by
  cases e with
  | use occurrence => exact (lookup_settles s occurrence).sink_eq
  | this receiver => exact (lookup_settles s receiver).sink_eq
  | super keyword method => exact (inheritedMethod_settles s keyword method).sink_eq
  | _ => rfl

theorem execute_sink (statement : Stmt) : (execute s statement).sink = s.sink := by
  cases statement with
  | var name initializer => cases initializer <;> rfl
  | returnWith keyword value => cases value <;> rfl
  | classDecl name superclass methods =>
      cases superclass with
      | none => exact (finishClass_finished _ name none methods).sink_eq
      | some occurrence => rfl
  | _ => rfl

/-- Only `print` writes anything. -/
theorem resume_prints (v : Value) (task : Pending) :
    ∃ text, (resume setting s v task).sink.text = s.sink.text ++ text := by
  cases task with
  | print keyword =>
      rcases resume_print setting s v keyword with ⟨_, hnext⟩ | ⟨_, _, hnext⟩ <;> rw [hnext] <;>
        exact s.sink.writeLine_text v.display
  | unary operator => exact Sink.nothing_written (operate_settles s operator _).sink_eq
  | rightOperand operator left => exact Sink.nothing_written (operate_settles s operator _).sink_eq
  | logical operator right =>
      rcases resume_logical setting s v operator right with hnext | hnext <;> rw [hnext] <;>
        exact Sink.nothing_written rfl
  | assignment target => exact Sink.nothing_written (assign_settles s target v).sink_eq
  | callee paren arguments =>
      cases arguments with
      | nil => exact Sink.nothing_written (call_called setting s v paren []).sink_eq
      | cons first rest => exact Sink.nothing_written rfl
  | argument callee paren before after =>
      cases after with
      | nil => exact Sink.nothing_written (call_called setting s callee paren _).sink_eq
      | cons next rest => exact Sink.nothing_written rfl
  | property name => exact Sink.nothing_written (getProperty_settles s v name).sink_eq
  | setTarget name value => cases v <;> exact Sink.nothing_written rfl
  | branch onTrue onFalse =>
      rcases resume_branch setting s v onTrue onFalse with hnext | ⟨_, _, hnext⟩ | ⟨_, hnext⟩ <;>
        rw [hnext] <;> exact Sink.nothing_written rfl
  | loopTest condition body =>
      rcases resume_loopTest setting s v condition body with hnext | hnext <;> rw [hnext] <;>
        exact Sink.nothing_written rfl
  | inherit name superclass methods =>
      cases v with
      | classValue class_ =>
          exact Sink.nothing_written (finishClass_finished s name (some class_) methods).sink_eq
      | _ => exact Sink.nothing_written rfl
  | _ => exact Sink.nothing_written rfl

theorem unwind_sink (c : Completion) (task : Pending) : (unwind s c task).sink = s.sink := by
  cases task with
  | sequence rest => cases c <;> cases rest <;> rfl
  | loopBody condition body => cases c <;> rfl
  | leaveCall env answer => cases c <;> rfl
  | _ => rfl

theorem step_prints (setting : Setting) :
    ∃ text, (step setting s).sink.text = s.sink.text ++ text := by
  obtain ⟨control, pending, env, depth, memory, sink⟩ := s
  cases control with
  | evaluate e => exact Sink.nothing_written (evaluate_sink _ e)
  | execute statement => exact Sink.nothing_written (execute_sink _ statement)
  | value v =>
      cases pending with
      | nil => exact Sink.nothing_written rfl
      | cons task below => exact resume_prints ⟨.value v, below, env, depth, memory, sink⟩ v task
  | complete c =>
      cases pending with
      | nil => exact Sink.nothing_written rfl
      | cons task below =>
          exact Sink.nothing_written
            (unwind_sink ⟨.complete c, below, env, depth, memory, sink⟩ c task)

/-- A run adds some text to the output. -/
theorem run_prints (fuel : Nat) :
    ∃ text, (run setting fuel s).sink.text = s.sink.text ++ text := by
  induction fuel generalizing s with
  | zero => exact Sink.nothing_written rfl
  | succ fuel ih =>
      rw [run_succ]
      obtain ⟨text, htext⟩ := step_prints s setting
      obtain ⟨more, hmore⟩ := ih (step setting s)
      exact ⟨text ++ more, by rw [hmore, htext, String.append_assoc]⟩

end Output

end Lox.Machine
