/-
Calls that are active and frames that are open.

Whoever enters a call or a block leaves a note on the stack.  The notes of calls are as many
as there are active calls, and behind all notes lie the frames that were open before any of
them was left (`State.RestsOn`).  Every step keeps that, so whatever was begun on top of a
stack, when nothing is left but that stack the frames and the count are what they were
(`restored_of_left`).

A call is entered only while there are fewer active calls than may be; with as many as that it
fails, and nothing else happens (`step_of_overflow`).
-/
import Lox.Proofs.Machine.Inheritance
import Lox.Proofs.Machine.Nesting

namespace Lox.Machine

variable {setting : Setting} {s : State} {env : Env} {depth : Nat}

/-! ### What a stack will put back -/

/-- How many calls are left with this work. -/
def Pending.calls : Pending → Nat
  | .leaveCall _ _ => 1
  | _ => 0

/-- How many calls are left before a stack is empty. -/
def callsOn : List Pending → Nat
  | [] => 0
  | task :: below => callsOn below + task.calls

/-- When everything pending has been left, these frames are open and so many calls are active;
there are never more of them than may be. -/
structure State.RestsOn (s : State) (env : Env) (depth : Nat) : Prop where
  env : s.pending.foldl Pending.envBelow s.env = env
  depth : s.depth = depth + callsOn s.pending
  bounded : s.depth ≤ maxDepth

theorem Settles.restsOn {s' : State} (h : Settles s s') (hs : s.RestsOn env depth) :
    s'.RestsOn env depth := by
  cases h with
  | value m v => exact ⟨hs.env, hs.depth, hs.bounded⟩
  | failed m failure => exact ⟨hs.env, hs.depth, hs.bounded⟩

/-! ### Calls -/

/-- A value is about to be called and all its arguments are there; what lies below waits for
the answer. -/
inductive State.Calls (s : State) :
    (callee : Value) → (paren : Token) → List Value → (below : List Pending) → Prop
  | plain {callee : Value} {paren : Token} {below : List Pending}
      (hcontrol : s.control = .value callee) (hpending : s.pending = .callee paren [] :: below) :
      s.Calls callee paren [] below
  | applied {callee last : Value} {paren : Token} {before : List Value} {below : List Pending}
      (hcontrol : s.control = .value last)
      (hpending : s.pending = .argument callee paren before [] :: below) :
      s.Calls callee paren (before ++ [last]) below

theorem State.Calls.step {callee : Value} {paren : Token} {arguments : List Value}
    {below : List Pending} (h : s.Calls callee paren arguments below) :
    step setting s = call setting { s with pending := below } callee paren arguments := by
  obtain ⟨control, pending, env, depth, memory, sink⟩ := s
  cases h with
  | plain hcontrol hpending =>
      obtain rfl : control = _ := hcontrol
      obtain rfl : pending = _ := hpending
      rfl
  | applied hcontrol hpending =>
      obtain rfl : control = _ := hcontrol
      obtain rfl : pending = _ := hpending
      rfl

/-- With as many active calls as may be, a call fails, and nothing else happens. -/
theorem step_of_overflow {callee : Value} {paren : Token} {arguments : List Value}
    {below : List Pending} (h : s.Calls callee paren arguments below)
    (harity : arity? callee = some arguments.length) (hdepth : maxDepth ≤ s.depth) :
    step setting s
      = { s with
          control := .complete (.failed ⟨paren, .stackOverflow⟩)
          pending := below } := by
  rw [h.step]
  unfold call
  rw [harity]
  dsimp only
  rw [if_neg (not_not_intro rfl), if_pos hdepth]
  rfl

theorem enter_restsOn (h : s.RestsOn env depth) (hdepth : s.depth < maxDepth) (closure : Closure)
    (arguments : List Value) (answer : Answer) :
    (enter s closure arguments answer).RestsOn env depth := by
  refine ⟨h.env, ?_, hdepth⟩
  show s.depth + 1 = depth + (callsOn s.pending + 1)
  rw [h.depth, Nat.add_assoc]

theorem Called.restsOn {callee : Value} {paren : Token} {arguments : List Value} {t : State}
    (h : Called setting s paren arguments callee t) (hs : s.RestsOn env depth) :
    t.RestsOn env depth := by
  cases h with
  | refused _ _ | clock _ | plain _ _ => exact ⟨hs.env, hs.depth, hs.bounded⟩
  | function h => exact enter_restsOn hs h.depth _ arguments _
  | initialized h _ =>
      refine enter_restsOn ?_ ?_ _ arguments _
      · exact ⟨hs.env, hs.depth, hs.bounded⟩
      · exact h.depth

/-! ### Steps -/

theorem evaluate_restsOn (h : s.RestsOn env depth) (e : Expr) :
    (evaluate setting s e).RestsOn env depth := by
  cases e with
  | use occurrence => exact (lookup_settles s occurrence).restsOn h
  | this receiver => exact (lookup_settles s receiver).restsOn h
  | super keyword method => exact (inheritedMethod_settles s keyword method).restsOn h
  | _ => exact ⟨h.env, h.depth, h.bounded⟩

theorem Finished.restsOn {name : Token} {superclass : Option Class} {methods : List FunctionDecl}
    {t : State} (h : Finished s name superclass methods t) (hs : s.RestsOn env depth) :
    t.RestsOn env depth := by
  cases h <;> exact ⟨hs.env, hs.depth, hs.bounded⟩

theorem execute_restsOn (h : s.RestsOn env depth) (statement : Stmt) :
    (execute s statement).RestsOn env depth := by
  cases statement with
  | var name initializer => cases initializer <;> exact ⟨h.env, h.depth, h.bounded⟩
  | returnWith keyword value => cases value <;> exact ⟨h.env, h.depth, h.bounded⟩
  | classDecl name superclass methods =>
      let defined : State := { s with memory := s.memory.define s.env name.lexeme .nil }
      have hdefined : defined.RestsOn env depth := ⟨h.env, h.depth, h.bounded⟩
      cases superclass with
      | none => exact (finishClass_finished defined name none methods).restsOn hdefined
      | some occurrence => exact ⟨h.env, h.depth, h.bounded⟩
  | _ => exact ⟨h.env, h.depth, h.bounded⟩

theorem resume_restsOn (v : Value) {task : Pending}
    (h : { s with pending := task :: s.pending }.RestsOn env depth) :
    (resume setting s v task).RestsOn env depth := by
  have hplain (hs : s.RestsOn env depth) (control : Control) (m : Memory) (sink : Sink) :
      { s with control := control, memory := m, sink := sink }.RestsOn env depth :=
    ⟨hs.env, hs.depth, hs.bounded⟩
  have hbelow : task.envBelow s.env = s.env → task.calls = 0 → s.RestsOn env depth := by
    intro henv hcalls
    refine ⟨henv ▸ h.env, ?_, h.bounded⟩
    have hdepth : s.depth = depth + (callsOn s.pending + task.calls) := h.depth
    rwa [hcalls] at hdepth
  cases task with
  | unary operator => exact (operate_settles s operator _).restsOn (hbelow rfl rfl)
  | rightOperand operator left => exact (operate_settles s operator _).restsOn (hbelow rfl rfl)
  | logical operator right =>
      rcases resume_logical setting s v operator right with hnext | hnext <;> rw [hnext] <;>
        exact hplain (hbelow rfl rfl) _ _ _
  | assignment target => exact (assign_settles s target v).restsOn (hbelow rfl rfl)
  | callee paren arguments =>
      cases arguments with
      | nil => exact (call_called setting s v paren []).restsOn (hbelow rfl rfl)
      | cons first rest => exact ⟨h.env, h.depth, h.bounded⟩
  | argument callee paren before after =>
      cases after with
      | nil => exact (call_called setting s callee paren _).restsOn (hbelow rfl rfl)
      | cons next rest => exact ⟨h.env, h.depth, h.bounded⟩
  | property name => exact (getProperty_settles s v name).restsOn (hbelow rfl rfl)
  | setTarget name value => cases v <;> exact ⟨h.env, h.depth, h.bounded⟩
  | print keyword =>
      rcases resume_print setting s v keyword with ⟨_, hnext⟩ | ⟨_, _, hnext⟩ <;> rw [hnext] <;>
        exact hplain (hbelow rfl rfl) _ _ _
  | branch onTrue onFalse =>
      rcases resume_branch setting s v onTrue onFalse with hnext | ⟨_, _, hnext⟩ | ⟨_, hnext⟩ <;>
        rw [hnext] <;> exact hplain (hbelow rfl rfl) _ _ _
  | loopTest condition body =>
      rcases resume_loopTest setting s v condition body with hnext | hnext <;> rw [hnext] <;>
        exact ⟨h.env, h.depth, h.bounded⟩
  | inherit name superclass methods =>
      cases v with
      | classValue class_ =>
          exact (finishClass_finished s name (some class_) methods).restsOn (hbelow rfl rfl)
      | _ => exact hplain (hbelow rfl rfl) _ _ _
  | _ => exact ⟨h.env, h.depth, h.bounded⟩

/-- Leaving a block or a call puts back what its note says. -/
theorem unwind_restsOn (c : Completion) {task : Pending}
    (h : { s with pending := task :: s.pending }.RestsOn env depth) :
    (unwind s c task).RestsOn env depth := by
  cases task with
  | sequence rest => cases c <;> cases rest <;> exact ⟨h.env, h.depth, h.bounded⟩
  | loopBody condition body => cases c <;> exact ⟨h.env, h.depth, h.bounded⟩
  | leaveCall outer answer =>
      have hdepth : s.depth = depth + (callsOn s.pending + 1) := h.depth
      have hbounded : s.depth ≤ maxDepth := h.bounded
      have hleft : s.depth - 1 = depth + callsOn s.pending := by omega
      cases c <;> exact ⟨h.env, hleft, Nat.le_trans (Nat.sub_le _ _) hbounded⟩
  | _ => exact ⟨h.env, h.depth, h.bounded⟩

/-- **No step loses a note, and none enters a call too many.** -/
theorem step_restsOn (h : s.RestsOn env depth) : (step setting s).RestsOn env depth := by
  obtain ⟨control, pending, inner, active, memory, sink⟩ := s
  cases control with
  | evaluate e => exact evaluate_restsOn h e
  | execute statement => exact execute_restsOn h statement
  | value v =>
      cases pending with
      | nil => exact ⟨h.env, h.depth, h.bounded⟩
      | cons task below =>
          exact resume_restsOn (s := ⟨.value v, below, inner, active, memory, sink⟩) v
            ⟨h.env, h.depth, h.bounded⟩
  | complete c =>
      cases pending with
      | nil => exact h
      | cons task below =>
          exact unwind_restsOn (s := ⟨.complete c, below, inner, active, memory, sink⟩) c
            ⟨h.env, h.depth, h.bounded⟩

theorem run_restsOn (h : s.RestsOn env depth) (steps : Nat) :
    (run setting steps s).RestsOn env depth := by
  induction steps generalizing s with
  | zero => exact h
  | succ steps ih =>
      rw [run_succ]
      exact ih (step_restsOn h)

/-! ### What was begun on top of a stack -/

/-- An expression or a statement is about to be taken apart. -/
def Control.isBegun : Control → Bool
  | .evaluate _ | .execute _ => true
  | _ => false

/-- There is something to do before what lies this high on the stack gets its turn. -/
def State.Above (s : State) (height : Nat) : Prop :=
  height < s.pending.length ∨ height = s.pending.length ∧ s.control.isBegun = true

instance (s : State) (height : Nat) : Decidable (s.Above height) :=
  inferInstanceAs (Decidable (_ ∨ _))

theorem State.Above.occupied {core : State} {base : List Pending}
    (h : (core.under base).Above base.length) : core.Occupied := by
  have hlength : (core.under base).pending.length = core.pending.length + base.length :=
    List.length_append
  rcases h with h | ⟨-, h⟩
  · refine .inl fun hnil => ?_
    rw [hlength, hnil, List.length_nil, Nat.zero_add] at h
    exact Nat.lt_irrefl _ h
  · refine .inr ?_
    cases hcontrol : core.control with
    | evaluate e => exact .inl ⟨e, rfl⟩
    | execute statement => exact .inr ⟨statement, rfl⟩
    | _ =>
        rw [State.under, hcontrol] at h
        exact absurd h Bool.false_ne_true

/-- As long as there is something to do above, what lies below stays as it is. -/
theorem run_under {core : State} {base : List Pending} {steps : Nat}
    (h : ∀ i < steps, (run setting i (core.under base)).Above base.length) :
    run setting steps (core.under base) = (run setting steps core).under base := by
  induction steps generalizing core with
  | zero => rfl
  | succ steps ih =>
      have hstep : step setting (core.under base) = (step setting core).under base :=
        step_under (h 0 (Nat.succ_pos steps)).occupied base
      rw [run_succ, run_succ, hstep]
      refine ih fun i hi => ?_
      rw [← hstep, ← run_succ]
      exact h (i + 1) (Nat.succ_lt_succ hi)

/-- **What was done above a stack leaves that as it was**, with the same frames open and as
many calls active as before. -/
theorem restored_of_left {core t : State} {base : List Pending} {steps : Nat}
    (hcore : core.RestsOn env depth) (ht : run setting steps (core.under base) = t)
    (habove : ∀ i < steps, (run setting i (core.under base)).Above base.length)
    (hleft : ¬t.Above base.length) :
    t.pending = base ∧ t.control.isBegun = false ∧ t.env = env ∧ t.depth = depth := by
  have hrests : (run setting steps core).RestsOn env depth := run_restsOn hcore steps
  rw [run_under habove] at ht
  subst ht
  generalize run setting steps core = t at hleft hrests
  have hlength : (t.under base).pending.length = t.pending.length + base.length :=
    List.length_append
  have hnil : t.pending = [] := by
    refine List.length_eq_zero_iff.mp (Nat.eq_zero_of_not_pos fun hpos => hleft (.inl ?_))
    rw [hlength]
    exact Nat.lt_add_of_pos_left hpos
  refine ⟨?_, Bool.eq_false_iff.mpr fun hbegun => hleft (.inr ⟨?_, hbegun⟩), ?_, ?_⟩
  · rw [State.under, hnil, List.nil_append]
  · rw [hlength, hnil, List.length_nil, Nat.zero_add]
  · rw [← hrests.env, hnil]
    rfl
  · have hdepth := hrests.depth
    rwa [hnil] at hdepth

/-! ### How it ends -/

/-- What is about to be begun on top of a stack; either there is a value in the end, or the end
of a statement. -/
inductive State.Begins (s : State) : (valued : Bool) → (base : List Pending) → Prop
  | expression {e : Expr} (hcontrol : s.control = .evaluate e) : s.Begins true s.pending
  | call {callee : Value} {paren : Token} {arguments : List Value} {below : List Pending}
      (h : s.Calls callee paren arguments below) : s.Begins true below
  | statement {statement : Stmt} (hcontrol : s.control = .execute statement) :
      s.Begins false s.pending
  | row {row : List Stmt} {below : List Pending} (hcontrol : s.control = .complete .normal)
      (hpending : s.pending = .sequence row :: below) : s.Begins false below

/-- What comes out in the end, unless there is a failure: a value, or the end of a statement. -/
inductive Control.Ends : (valued : Bool) → Control → Prop
  | value (v : Value) : Ends true (.value v)
  | complete (c : Completion) : Ends false (.complete c)
  | failed (failure : Failure) : Ends true (.complete (.failed failure))

/-- What is begun has nothing on the stack yet that has to be left. -/
theorem State.Begins.top {valued : Bool} {base : List Pending} (h : s.Begins valued base) :
    ∃ top, s.pending = top ++ base ∧ top.foldl Pending.envBelow s.env = s.env ∧
      callsOn top = 0 := by
  cases h with
  | expression _ => exact ⟨[], rfl, rfl, rfl⟩
  | statement _ => exact ⟨[], rfl, rfl, rfl⟩
  | call h =>
      cases h with
      | plain _ hpending => exact ⟨[_], hpending, rfl, rfl⟩
      | applied _ hpending => exact ⟨[_], hpending, rfl, rfl⟩
  | row _ hpending => exact ⟨[_], hpending, rfl, rfl⟩

/-- Where there is a value in the end, the stack below expects one, and only there. -/
theorem State.Begins.expects {valued : Bool} {base : List Pending} (h : s.Begins valued base)
    (hnested : s.Nested) : Expects base ↔ valued = true := by
  obtain ⟨control, pending, inner, active, memory, sink⟩ := s
  cases h with
  | expression hcontrol =>
      obtain rfl : control = _ := hcontrol
      cases hnested with
      | evaluate h => exact ⟨fun _ => rfl, fun _ => h⟩
  | statement hcontrol =>
      obtain rfl : control = _ := hcontrol
      cases hnested with
      | execute h => exact ⟨fun hexpects => absurd hexpects h.not_expects, nofun⟩
  | call h =>
      refine ⟨fun _ => rfl, fun _ => ?_⟩
      cases h <;> rename_i hcontrol hpending <;>
      · obtain rfl : control = _ := hcontrol
        obtain rfl : pending = _ := hpending
        cases hnested with
        | value h =>
            cases h with
            | part _ h => exact h
            | last hkind _ => exact absurd hkind Bool.false_ne_true
  | row hcontrol hpending =>
      obtain rfl : control = _ := hcontrol
      obtain rfl : pending = _ := hpending
      refine ⟨fun hexpects => absurd hexpects ?_, nofun⟩
      cases hnested with
      | begun h => exact h.not_expects
      | done h _ => exact h.below_not_expects rfl
      | left h _ => cases h

/-- What is done on top of a stack has ended as the stack expects. -/
theorem State.Nested.ends (h : s.Nested) (hbegun : s.control.isBegun = false) {valued : Bool}
    (hexpects : Expects s.pending ↔ valued = true) : s.control.Ends valued := by
  obtain ⟨control, pending, inner, active, memory, sink⟩ := s
  have hunexpected (h : ¬Expects pending) : valued = false :=
    Bool.eq_false_iff.mpr fun hvalued => h (hexpects.mpr hvalued)
  cases h with
  | evaluate h => exact absurd hbegun.symm Bool.false_ne_true
  | execute h => exact absurd hbegun.symm Bool.false_ne_true
  | value h =>
      obtain rfl := hexpects.mp h
      exact .value _
  | fell h =>
      obtain rfl := hexpects.mp h
      exact .failed _
  | begun h =>
      obtain rfl := hunexpected fun hexpects => Bool.false_ne_true hexpects.takesValue
      exact .complete _
  | done h _ =>
      obtain rfl := hunexpected h.not_expects
      exact .complete _
  | left h _ =>
      obtain rfl := hunexpected h.not_expects
      exact .complete _

end Lox.Machine
