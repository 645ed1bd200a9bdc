/-
Initializers yield their instances.

Whatever the body of an initializer computes, its call has one value to give: the instance that
`this` is bound to in front of the body, or for the call of a class the instance that was made
for it.  The body runs above the note of its call and leaves that as it is, and no step binds
`this` anew, so what the note says in the end is what was known in the beginning.
-/
import Lox.Proofs.Machine.Receivers
import Lox.Proofs.Session.Restoring

namespace Lox.Machine

variable {setting : Setting} {s : State} {callee : Value} {paren : Token} {arguments : List Value}
  {below : List Pending}

/-! ### What is left of a call -/

theorem State.Calls.above (h : s.Calls callee paren arguments below) :
    s.Above below.length := by
  cases h with
  | plain _ hpending => exact .inl (by rw [hpending]; exact Nat.lt_succ_self _)
  | applied _ hpending => exact .inl (by rw [hpending]; exact Nat.lt_succ_self _)

/-- What is called is a value that the state holds. -/
theorem State.Calls.holds (h : s.Calls callee paren arguments below) : s.Holds callee := by
  cases h with
  | plain hcontrol _ => exact .result hcontrol
  | applied _ hpending => exact .callee (by rw [hpending]; exact List.mem_cons_self)

/-- With nothing but a stack left and nothing begun, there is nothing to do above the stack. -/
theorem not_above (hpending : s.pending = below) (hbegun : s.control.isBegun = false) :
    ¬s.Above below.length := by
  subst hpending
  rintro (h | ⟨-, h⟩)
  · exact Nat.lt_irrefl _ h
  · exact absurd (h.symm.trans hbegun) (by decide)

/-- What is above some work on a stack is above what lies below that. -/
theorem State.Above.further {task : Pending} (h : s.Above (task :: below).length) :
    s.Above below.length := by
  rcases h with h | ⟨h, -⟩
  · exact .inl (Nat.lt_of_succ_lt h)
  · exact .inl (Nat.lt_of_succ_le (Nat.le_of_eq h))

/-- The first state in which there is nothing more to do above a stack is the only one. -/
theorem steps_unique {height m n : Nat} (hm : ∀ i < m, (run setting i s).Above height)
    (hm' : ¬(run setting m s).Above height) (hn : ∀ i < n, (run setting i s).Above height)
    (hn' : ¬(run setting n s).Above height) : m = n :=
  Nat.le_antisymm (Nat.le_of_not_lt fun h => hn' (hm n h)) (Nat.le_of_not_lt fun h => hm' (hn m h))

/-- The note of a call hands on a failure, and makes anything else the value of the call. -/
theorem step_leaveCall (setting : Setting) {c : Completion} {env : Env} {answer : Answer}
    (hcontrol : s.control = .complete c) (hpending : s.pending = .leaveCall env answer :: below) :
    (step setting s).pending = below ∧
      ((step setting s).control = .value (answer.value s.memory c) ∨
        ∃ failure, c = .failed failure ∧
          (step setting s).control = .complete (.failed failure)) := by
  obtain ⟨control, pending, inner, depth, memory, sink⟩ := s
  obtain rfl : control = _ := hcontrol
  obtain rfl : pending = _ := hpending
  cases c with
  | failed failure => exact ⟨rfl, .inr ⟨failure, rfl, rfl⟩⟩
  | _ => exact ⟨rfl, .inl rfl⟩

/-- A call after whose first step only the stack below is left has ended with that. -/
theorem State.Calls.ends_at_once (h : s.Calls callee paren arguments below) {steps : Nat}
    (hpending : (run setting 1 s).pending = below)
    (hbegun : (run setting 1 s).control.isBegun = false)
    (habove : ∀ i < steps, (run setting i s).Above below.length)
    (hleft : ¬(run setting steps s).Above below.length) : steps = 1 := by
  refine steps_unique habove hleft (fun i hi => ?_) (not_above hpending hbegun)
  obtain rfl := Nat.lt_one_iff.mp hi
  exact h.above

/-- How a call ends after so many steps: with the given value, if it ends in one at all.  It does
not if it is refused, or if a failure comes out of the body. -/
inductive CallEnds (setting : Setting) (s : State) (callee : Value) (arguments : List Value)
    (below : List Pending) (v : Value) : (steps : Nat) → Prop
  | yields {steps : Nat} (hcontrol : (run setting steps s).control = .value v)
      (hpending : (run setting steps s).pending = below) :
      CallEnds setting s callee arguments below v steps
  | refused (failure : Failure) (hrefused : ¬s.Admits callee arguments)
      (hcontrol : (run setting 1 s).control = .complete (.failed failure)) :
      CallEnds setting s callee arguments below v 1
  | failed {before : Nat} {env : Env} {answer : Answer} (failure : Failure)
      (hbody : (run setting before s).control = .complete (.failed failure))
      (hpending : (run setting before s).pending = .leaveCall env answer :: below)
      (hcontrol : (run setting (before + 1) s).control = .complete (.failed failure)) :
      CallEnds setting s callee arguments below v (before + 1)

end Lox.Machine

namespace Lox.Session

open Machine Scope

variable {session after : Session} {source : String} {program : List Stmt}
  {found : List (Nat × Nat)} {setting : Setting} {s : State} {callee : Value} {paren : Token}
  {arguments : List Value} {below : List Pending} {steps : Nat}

/-! ### Everything is founded in every session -/

/-- However far the run of an accepted program has come, its initializers are bound. -/
theorem Sound.founded_runs (h : session.Sound)
    (hfounded : session.memory.Only (Value.Founded session.memory))
    (haccepts : session.Accepts source program found after) (clock : Nat → Float) (sink : Sink)
    (steps : Nat) :
    (Machine.run ⟨after.locals.extend found, clock⟩ steps (after.starts program sink)).Founded := by
  induction steps with
  | zero =>
      refine ⟨?_, trivial, List.forall_mem_singleton.mpr trivial⟩
      show after.memory.Only (Value.Founded after.memory)
      rwa [haccepts.memory_eq]
  | succ steps ih =>
      rw [run_step]
      exact step_founded (h.runs haccepts clock sink steps) ih

theorem Reachable.founded (h : session.Reachable) :
    session.memory.Only (Value.Founded session.memory) := by
  refine h.invariant (I := fun session => session.memory.Only (Value.Founded session.memory))
    (.initial trivial) (fun _ _ _ h => h) ?_
  rintro session after source program found clock fuel sink s c hreachable h haccepts rfl -
  exact (hreachable.sound.founded_runs h haccepts clock sink fuel).memory

theorem Visited.founded (h : Visited setting s) : s.Founded := by
  obtain ⟨session, after, source, program, found, clock, sink, steps, hreachable, haccepts,
    rfl, rfl⟩ := h
  exact hreachable.sound.founded_runs hreachable.founded haccepts clock sink steps

theorem Visited.next (h : Visited setting s) : Visited setting (step setting s) := by
  have hnext := h.run 1
  rwa [run_succ] at hnext

/-- What `this` is bound to stays, however far a run goes on. -/
theorem Visited.keeps (h : Visited setting s) (steps : Nat) :
    s.memory.Keeps (Machine.run setting steps s).memory := by
  induction steps with
  | zero => exact .refl _
  | succ steps ih =>
      obtain ⟨r, -, hsound⟩ := (h.run steps).sound
      rw [run_step]
      exact ih.trans (step_keeps hsound)

/-! ### How calls end -/

/-- A body that was entered is done one step before its call is, and leaves the note of that. -/
theorem Visited.body_done (h : Visited setting s) {body : List Stmt} {env : Env} {answer : Answer}
    (hcontrol : s.control = .complete .normal)
    (hpending : s.pending = .sequence body :: .leaveCall env answer :: below)
    (habove : ∀ i < steps, (Machine.run setting i s).Above below.length)
    (hleft : ¬(Machine.run setting steps s).Above below.length) :
    ∃ before c, steps = before + 1 ∧ (Machine.run setting before s).control = .complete c ∧
      (Machine.run setting before s).pending = .leaveCall env answer :: below := by
  have hexists : ∃ i, ¬(Machine.run setting i s).Above (.leaveCall env answer :: below).length :=
    ⟨steps, fun h => hleft h.further⟩
  -- the first state in which the note is on top
  let before := Nat.find hexists
  have hbefore : ∀ i < before,
      (Machine.run setting i s).Above (.leaveCall env answer :: below).length :=
    fun i hi => not_not.mp (Nat.find_min hexists hi)
  obtain ⟨hnote, hends, -, -⟩ :=
    h.restored (.row hcontrol hpending) hbefore rfl (Nat.find_spec hexists)
  obtain ⟨c, hc⟩ : ∃ c, (Machine.run setting before s).control = .complete c := by
    generalize (Machine.run setting before s).control = control at hends
    cases hends with
    | complete c => exact ⟨c, rfl⟩
  have hhere : (Machine.run setting before s).Above below.length :=
    .inl (by rw [hnote]; exact Nat.lt_succ_self _)
  obtain ⟨hbelow, hresult⟩ := step_leaveCall setting hc hnote
  have hbegun : (step setting (Machine.run setting before s)).control.isBegun = false := by
    rcases hresult with hresult | ⟨failure, -, hresult⟩ <;>
    · rw [hresult]
      rfl
  refine ⟨before, c, steps_unique habove hleft (fun i hi => ?_) ?_, hc, hnote⟩
  · rcases Nat.lt_succ_iff_lt_or_eq.mp hi with hi | rfl
    · exact (hbefore i hi).further
    · exact hhere
  · rw [run_step]
    exact not_above hbelow hbegun

/-- A call that enters a body yields what its note says in the end, unless the body fails. -/
theorem Visited.entered_ends (h : Visited setting s)
    (hcalls : s.Calls callee paren arguments below) {t : State} {closure : Closure}
    {answer : Answer} {v : Value} (hpending : t.pending = below)
    (hstep : step setting s = enter t closure arguments answer)
    (habove : ∀ i < steps, (Machine.run setting i s).Above below.length)
    (hleft : ¬(Machine.run setting steps s).Above below.length)
    (hanswer : ∀ i c, answer.value (Machine.run setting i s).memory c = v) :
    CallEnds setting s callee arguments below v steps := by
  cases steps with
  | zero => exact absurd hcalls.above hleft
  | succ steps =>
      rw [run_succ] at hleft
      have hnext : ∀ i < steps, (Machine.run setting i (step setting s)).Above below.length := by
        intro i hi
        rw [← run_succ]
        exact habove (i + 1) (Nat.succ_lt_succ hi)
      have hbegun : (step setting s).control = .complete .normal := by
        rw [hstep]
        rfl
      have hentered : (step setting s).pending
          = .sequence closure.declaration.body :: .leaveCall t.env answer :: below := by
        rw [hstep, ← hpending]
        rfl
      obtain ⟨before, c, rfl, hc, hnote⟩ := h.next.body_done hbegun hentered hnext hleft
      rw [← run_succ] at hc hnote
      obtain ⟨hbelow, hvalue | ⟨failure, rfl, hfailed⟩⟩ :=
        step_leaveCall setting hc hnote
      · refine .yields ?_ (by rw [run_step, hbelow])
        rw [run_step, hvalue, hanswer]
      · exact .failed failure hc hnote (by rw [run_step, hfailed])

/-- A call that is refused has ended after one step. -/
theorem refused_ends (hcalls : s.Calls callee paren arguments below)
    (hrefused : ¬State.Admits { s with pending := below } callee arguments) {cause : Failure.Cause}
    (hstep : step setting s = { s with pending := below }.failing paren cause) (v : Value)
    (habove : ∀ i < steps, (Machine.run setting i s).Above below.length)
    (hleft : ¬(Machine.run setting steps s).Above below.length) :
    CallEnds setting s callee arguments below v steps := by
  have hrun : Machine.run setting 1 s = { s with pending := below }.failing paren cause := by
    rw [run_succ, hstep]
    rfl
  obtain rfl : steps = 1 :=
    hcalls.ends_at_once (by rw [hrun]; rfl) (by rw [hrun]; rfl) habove hleft
  exact .refused _ (fun hadmits => hrefused ⟨hadmits.arity, hadmits.depth⟩) (by rw [hrun]; rfl)

/-- A call of an initializer ends with the instance that it is bound to. -/
theorem Visited.initializer_ends (h : Visited setting s) {identity : Nat} {closure : Closure}
    {address : Address} {class_ : Class} (hflag : closure.isInitializer = true)
    (hreceives : closure.Receives s.memory address class_)
    (hcalls : s.Calls (.function identity closure) paren arguments below)
    (habove : ∀ i < steps, (Machine.run setting i s).Above below.length)
    (hleft : ¬(Machine.run setting steps s).Above below.length) :
    CallEnds setting s (.function identity closure) arguments below (.object address class_)
      steps := by
  have hcalled :=
    call_called setting { s with pending := below } (.function identity closure) paren arguments
  rw [← hcalls.step] at hcalled
  generalize hstep : step setting s = next at hcalled
  cases hcalled with
  | refused hrefused _ => exact refused_ends hcalls hrefused hstep _ habove hleft
  | function _ =>
      rw [if_pos hflag] at hstep
      refine h.entered_ends hcalls rfl hstep habove hleft fun i c => ?_
      obtain ⟨a, outer, henv, hthis⟩ := hreceives.keep (h.keeps i)
      show ((Machine.run setting i s).memory.readAt? closure.env 0 "this").getD .nil = _
      rw [henv, readAt?_eq "this" (a := a) rfl, hthis, Option.getD_some]

/-- A call of a class ends with the instance that was made for it. -/
theorem Visited.construction_ends (h : Visited setting s) {class_ : Class}
    (hcalls : s.Calls (.classValue class_) paren arguments below)
    (habove : ∀ i < steps, (Machine.run setting i s).Above below.length)
    (hleft : ¬(Machine.run setting steps s).Above below.length) :
    CallEnds setting s (.classValue class_) arguments below
      (.object s.memory.fields.size class_) steps := by
  have hcalled :=
    call_called setting { s with pending := below } (.classValue class_) paren arguments
  rw [← hcalls.step] at hcalled
  generalize hstep : step setting s = next at hcalled
  cases hcalled with
  | refused hrefused _ => exact refused_ends hcalls hrefused hstep _ habove hleft
  | plain _ _ =>
      have hrun : Machine.run setting 1 s
          = { s with
              pending := below
              memory := s.memory.newObject.2
              control := .value (.object s.memory.fields.size class_) } := by
        rw [run_succ, hstep]
        rfl
      obtain rfl : steps = 1 :=
        hcalls.ends_at_once (by rw [hrun]) (by rw [hrun]; rfl) habove hleft
      exact .yields (by rw [hrun]) (by rw [hrun])
  | initialized _ _ => exact h.entered_ends hcalls rfl hstep habove hleft fun _ _ => rfl

/-! ### Initializers yield their instances -/

/-- **Initializers yield their instances.**  In every state that a session passes through:

  * Every function value that the state holds and that is an initializer is bound to an instance,
    so no method leaves the table of its class as it is.  All instances that the state holds have
    been made, so the next one will be another.
  * The call of an initializer, whatever the value that is called came from, ends with the
    instance that it is bound to, and the call of a class with a new instance of just that class.
    Whatever the body of the initializer computes, the call ends otherwise only if it is refused
    or if a failure comes out of the body. -/
theorem initializers_yield_instances (h : Visited setting s) :
    (∀ identity closure, s.Holds (.function identity closure) → closure.isInitializer = true →
      ∃ address class_, closure.Receives s.memory address class_) ∧
    (∀ address class_, s.Holds (.object address class_) → address < s.memory.fields.size) ∧
    ∀ callee paren arguments below steps, s.Calls callee paren arguments below →
      (∀ i < steps, (Machine.run setting i s).Above below.length) →
      ¬(Machine.run setting steps s).Above below.length →
      (∀ identity closure, callee = .function identity closure → closure.isInitializer = true →
        ∃ address class_, closure.Receives s.memory address class_ ∧
          CallEnds setting s callee arguments below (.object address class_) steps) ∧
      ∀ class_, callee = .classValue class_ →
        CallEnds setting s callee arguments below (.object s.memory.fields.size class_) steps := by
  have hbound : ∀ identity closure, s.Holds (.function identity closure) →
      closure.isInitializer = true → ∃ address class_, closure.Receives s.memory address class_ :=
    fun identity closure hholds => h.founded.of_holds hholds
  refine ⟨hbound, fun address class_ hholds => h.founded.of_holds hholds,
    fun callee paren arguments below steps hcalls habove hleft =>
      ⟨fun identity closure hcallee hflag => ?_, fun class_ hcallee => ?_⟩⟩
  · subst hcallee
    obtain ⟨address, class_, hreceives⟩ := hbound identity closure hcalls.holds hflag
    exact ⟨address, class_, hreceives,
      h.initializer_ends hflag hreceives hcalls habove hleft⟩
  · subst hcallee
    exact h.construction_ends hcalls habove hleft

/-- An initializer is taken from an instance, kept in a variable and called from there.  Its body
returns nothing, but the call ends with the instance. -/
theorem stored_initializer_yields : ∃ setting s closure paren below,
    Visited setting s ∧ s.Calls (.function 1 closure) paren [] below ∧
    closure.isInitializer = true ∧
    (∀ i < 5, (Machine.run setting i s).Above below.length) ∧
    ¬(Machine.run setting 5 s).Above below.length ∧
    (∃ address class_, closure.Receives s.memory address class_ ∧
      CallEnds setting s (.function 1 closure) [] below (.object address class_) 5) ∧
    ∃ class_, (Machine.run setting 5 s).control = .value (.object 0 class_) := by
  let a : Token := ⟨.identifier, "A", 1⟩
  let i : Token := ⟨.identifier, "i", 1⟩
  let init : Token := ⟨.identifier, "init", 1⟩
  let paren : Token := ⟨.rightParen, ")", 1⟩
  let initializer : FunctionDecl := ⟨init, [], [.returnWith ⟨.kwReturn, "return", 1⟩ none]⟩
  let program : List Stmt := [
    .classDecl a none [initializer],
    .var i (some (.get (.call (.use ⟨a, 1⟩) paren []) init)),
    .expression (.call (.use ⟨i, 2⟩) paren [])]
  let after : Session := { Session.new with lastId := 2 }
  have haccepts : Session.new.Accepts
      "class A \x7b init() \x7b return; \x7d \x7d var i = A().init; i();" program [] after := by
    unfold Accepts
    cbv
  let setting : Setting := ⟨after.locals.extend [], fun _ => 0⟩
  let start : State := after.starts program (.working "")
  let below : List Pending := [.discard, .sequence []]
  let closure : Closure := ⟨initializer, [3, 0], true⟩
  let class_ : Class := ⟨⟨0, "A", [("init", ⟨initializer, [0], true⟩)]⟩, []⟩
  have hcontrol : (Machine.run setting 18 start).control = .value (.function 1 closure) := by cbv
  have hpending : (Machine.run setting 18 start).pending = .callee paren [] :: below := by cbv
  have hresult : (Machine.run setting 23 start).control = .value (.object 0 class_) := by cbv
  have habove : ∀ i < 5, (Machine.run setting (18 + i) start).Above below.length := by decide
  have hleft : ¬(Machine.run setting (18 + 5) start).Above below.length := by decide
  simp only [run_add] at habove hleft
  have hvisited : Visited setting (Machine.run setting 18 start) :=
    ⟨.new, after, _, program, [], _, .working "", 18, .new, haccepts, rfl, rfl⟩
  have hcalls := State.Calls.plain hcontrol hpending
  have hends := ((initializers_yield_instances hvisited).2.2 _ paren [] below 5 hcalls habove
    hleft).1 1 closure rfl rfl
  exact ⟨setting, _, closure, paren, below, hvisited, hcalls, rfl, habove, hleft, hends, class_,
    (congrArg State.control (run_add 18 5 start)).symm.trans hresult⟩

end Lox.Session
