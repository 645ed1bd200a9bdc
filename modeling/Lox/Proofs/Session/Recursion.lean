/-
Recursion comes to an end.

No more calls are ever active than may be, and one call too many is a failure before anything
of the callee is done.  So a program in which nothing is repeated by a loop ends, whatever its
functions, methods, initializers and closures call: each way to start over is a call that is
made inside of the one before.

The bound is reached: a function that does nothing but call itself is called once more inside of
each call, until there is no room for another one, and this failure is how the run ends
(`Repeats.overflows`).
-/
import Lox.Proofs.Machine.Descent
import Lox.Proofs.Machine.Environments
import Lox.Proofs.Session.Restoring

namespace Lox.Machine

variable {setting : Setting} {s : State}

/-! ### A failure ends the run -/

theorem unwind_failed (s : State) (failure : Failure) (task : Pending) :
    (unwind s (.failed failure) task).control = .complete (.failed failure) ∧
      (unwind s (.failed failure) task).pending = s.pending := by
  cases task with
  | sequence rest => cases rest <;> exact ⟨rfl, rfl⟩
  | _ => exact ⟨rfl, rfl⟩

/-- Nothing on the stack stops a failure. -/
theorem run_of_failed {failure : Failure} (h : s.control = .complete (.failed failure)) :
    (run setting s.pending.length s).ended? = some (.failed failure) := by
  induction hpending : s.pending generalizing s with
  | nil => exact ended?_eq_some_iff.mpr ⟨h, hpending⟩
  | cons task below ih =>
      have hstep : step setting s = unwind { s with pending := below } (.failed failure) task := by
        rw [step, h, hpending]
      obtain ⟨hcontrol, hbelow⟩ := unwind_failed { s with pending := below } failure task
      rw [← hstep] at hcontrol hbelow
      rw [List.length_cons, run_succ]
      exact ih hcontrol hbelow

/-! ### A function that calls itself -/

/-- The function of the globals has no parameters, and all that its body does is to call it. -/
structure Circular (setting : Setting) (name : Occurrence) (paren : Token) (closure : Closure) :
    Prop where
  global : setting.locals[name.id]? = none
  params : closure.declaration.params = []
  body : closure.declaration.body = [.expression (.call (.use name) paren [])]

/-- The function that a global is bound to is about to be called. -/
structure Repeats (name : Occurrence) (paren : Token) (identity : Nat) (closure : Closure)
    (s : State) : Prop where
  calls : ∃ below, s.Calls (.function identity closure) paren [] below
  bound : (s.memory.frame 0).get? name.name.lexeme = some (.function identity closure)

section Repeats

variable {name : Occurrence} {paren : Token} {identity : Nat} {closure : Closure}

theorem Circular.arity (h : Circular setting name paren closure) :
    arity? (.function identity closure) = some ([] : List Value).length := by
  rw [arity?, h.params]
  rfl

theorem lookup_global {v : Value} (hglobal : setting.locals[name.id]? = none)
    (hbound : (s.memory.frame 0).get? name.name.lexeme = some v) :
    lookup setting s name = s.giving v := by
  have hread : s.memory.read? Memory.globals name.name.lexeme = some v := by
    rw [Memory.globals, Memory.read?_cons, Memory.readAt?_zero, hbound, Option.some_or]
  unfold lookup
  rw [hglobal]
  dsimp only
  rw [hread]

/-- Inside of the call the function is called once more. -/
theorem Repeats.again (h : Repeats name paren identity closure s)
    (hcircular : Circular setting name paren closure) (hdepth : s.depth < maxDepth) :
    Repeats name paren identity closure (run setting 5 s) ∧
      (run setting 5 s).depth = s.depth + 1 := by
  obtain ⟨⟨below, hcalls⟩, hbound⟩ := h
  have hcalled := call_called setting { s with pending := below } (.function identity closure)
    paren []
  rw [← hcalls.step] at hcalled
  rw [run_succ]
  generalize step setting s = inside at hcalled ⊢
  cases hcalled with
  | refused hnot _ => exact absurd ⟨hcircular.arity, hdepth⟩ hnot
  | function _ =>
      generalize (if closure.isInitializer then Answer.receiver closure.env else .returned)
        = answer
      have hbody : run setting 3 (enter { s with pending := below } closure [] answer)
          = ⟨.evaluate (.use name),
              .callee paren [] :: .discard :: .sequence [] :: .leaveCall s.env answer :: below,
              s.memory.frames.size :: closure.env, s.depth + 1, (s.memory.newFrame []).2,
              s.sink⟩ := by
        rw [enter, hcircular.params, hcircular.body]
        rfl
      have hframe : 0 < s.memory.frames.size :=
        Memory.lt_size_of_binds (by rw [Bindings.binds, hbound]; rfl)
      have hkept : ((s.memory.newFrame []).2.frame 0).get? name.name.lexeme
          = some (.function identity closure) := by
        rw [Memory.frame_newFrame, if_neg hframe.ne, hbound]
      rw [run_step, hbody]
      dsimp only [step, evaluate]
      rw [lookup_global hcircular.global hkept]
      exact ⟨⟨⟨_, .plain rfl rfl⟩, hkept⟩, rfl⟩

/-- So every number of active calls is reached that there may be. -/
theorem Repeats.reaches (h : Repeats name paren identity closure s)
    (hcircular : Circular setting name paren closure) {depth : Nat} (hle : s.depth ≤ depth)
    (hmax : depth ≤ maxDepth) :
    ∃ steps, Repeats name paren identity closure (run setting steps s) ∧
      (run setting steps s).depth = depth := by
  induction depth, hle using Nat.le_induction with
  | base => exact ⟨0, h, rfl⟩
  | succ depth hle ih =>
      obtain ⟨steps, hrepeats, hdepth⟩ := ih (Nat.le_of_succ_le hmax)
      obtain ⟨hagain, hdeeper⟩ := hrepeats.again hcircular (hdepth ▸ hmax)
      rw [← run_add] at hagain hdeeper
      exact ⟨steps + 5, hagain, hdeeper.trans (congrArg Nat.succ hdepth)⟩

/-- **A function that does nothing but call itself ends in a stack overflow.** -/
theorem Repeats.overflows (h : Repeats name paren identity closure s)
    (hcircular : Circular setting name paren closure) (hdepth : s.depth ≤ maxDepth) :
    ∃ steps, (run setting steps s).ended? = some (.failed ⟨paren, .stackOverflow⟩) := by
  obtain ⟨steps, ⟨⟨below, hcalls⟩, -⟩, hfull⟩ := h.reaches hcircular hdepth (Nat.le_refl _)
  have hfailed : (run setting (steps + 1) s).control
      = .complete (.failed ⟨paren, .stackOverflow⟩) := by
    rw [run_step, step_of_overflow hcalls hcircular.arity hfull.ge]
  exact ⟨_, (congrArg State.ended? (run_add (steps + 1) _ s)).trans (run_of_failed hfailed)⟩

end Repeats

end Lox.Machine

namespace Lox.Session

open Machine

variable {after : Session} {source : String} {program : List Stmt} {found : List (Nat × Nat)}

/-- A part of a program that is found at some place. -/
abbrev PartOf (program : List Stmt) (n : Node) : Prop :=
  ∃ site, Place.IsIn program ⟨site, n⟩

/-- A new session works on nothing but parts of the program that is run in it. -/
theorem Accepts.starts_of (h : Session.new.Accepts source program found after) (sink : Sink) :
    (after.starts program sink).Of (PartOf program) := by
  refine State.start_of (fun s hs => ?_) ?_
  · refine Place.hereditary program (.program program) ⟨[], .self⟩ (.stmt s) ?_
    exact List.mem_map_of_mem hs
  · rw [h.memory_eq]
    exact Memory.All.initial

/-- An accepted program without a loop has ended after some number of steps. -/
theorem Accepts.ends (h : Session.new.Accepts source program found after)
    (hloops : ∀ p : Place, p.IsIn program → p.node.isLoop = false) (clock : Nat → Float)
    (sink : Sink) : ∃ (steps : Nat) (c : Completion),
      (Machine.run ⟨after.locals.extend found, clock⟩ steps (after.starts program sink)).ended?
        = some c := by
  have hsize (n : Node) (hn : PartOf program n) :
      3 * sizeOf n ≤ 3 * sizeOf (Node.program program) := by
    obtain ⟨site, hplace⟩ := hn
    exact Nat.mul_le_mul_left 3 hplace.sizeOf_le
  have hloop (n : Node) (hn : PartOf program n) : n.isLoop = false := by
    obtain ⟨site, hplace⟩ := hn
    exact hloops ⟨site, n⟩ hplace
  have hrests : (after.starts program sink).RestsOn Memory.globals 0 :=
    Reachable.new.rests.starts h sink
  obtain ⟨c, hended⟩ := run_ends hsize hloop (Place.hereditary program) (h.starts_of sink) hrests
    (Nat.le_refl _)
  exact ⟨_, c, hended⟩

/-- **Runaway recursion ends.**

  * In every state that a session passes through there are at most 4096 active calls: as many as
    there are notes of calls on the stack.
  * With 4096 active calls, a call of what can be called, with as many arguments as it takes,
    fails with a stack overflow at its closing parenthesis, and nothing else happens.
  * A program without a loop that a new session accepts ends, either with success or in a
    failure. -/
theorem recursion_ends :
    (∀ (setting : Setting) (s : State), Visited setting s →
      s.depth = callsOn s.pending ∧ s.depth ≤ 4096) ∧
    (∀ (setting : Setting) (s : State) (callee : Value) (paren : Token) (arguments : List Value)
      (below : List Pending), s.Calls callee paren arguments below →
      arity? callee = some arguments.length → s.depth = 4096 →
      ∃ failure : Failure,
        step setting s
          = { s with control := .complete (.failed failure), pending := below } ∧
        failure.token = paren ∧ failure.cause.message = "Stack overflow.") ∧
    ∀ (source : String) (program : List Stmt) (found : List (Nat × Nat)) (after : Session),
      Session.new.Accepts source program found after →
      (∀ p : Place, p.IsIn program → p.node.isLoop = false) →
      ∀ (clock : Nat → Float) (sink : Sink), ∃ steps, ∀ fuel, steps ≤ fuel →
        Session.new.run clock fuel sink source = Session.new.run clock steps sink source ∧
        ((Session.new.run clock fuel sink source).1 = .success ∨
          ∃ failure, (Session.new.run clock fuel sink source).1 = .failed failure) := by
  refine ⟨fun setting s hvisited => ?_, fun setting s callee paren arguments below hcalls harity
    hdepth => ?_, fun source program found after haccepts hloops clock sink => ?_⟩
  · have hrests := hvisited.restsOn
    exact ⟨hrests.depth.trans (Nat.zero_add _), hrests.bounded⟩
  · exact ⟨_, step_of_overflow hcalls harity hdepth.ge, rfl, rfl⟩
  · obtain ⟨steps, c, hended⟩ := haccepts.ends hloops clock sink
    refine ⟨steps, fun fuel hfuel => ?_⟩
    rw [haccepts.run_eq, haccepts.run_eq, run_mono hfuel hended]
    refine ⟨rfl, ?_⟩
    dsimp only [outcomeOf]
    rw [hended]
    cases c with
    | failed failure => exact .inr ⟨failure, rfl⟩
    | _ => exact .inl rfl

/-- A function that does nothing but call itself: at some time there are 4096 active calls, the
next one is not made, and this failure is the end of the run. -/
theorem runaway_recursion_ends : ∃ found after,
    let source := "fun f() \x7b f(); \x7d f();"
    let paren : Token := ⟨.rightParen, ")", 1⟩
    let program : List Stmt := [
      .function ⟨⟨.identifier, "f", 1⟩, [], [.expression
        (.call (.use ⟨⟨.identifier, "f", 1⟩, 1⟩) paren [])]⟩,
      .expression (.call (.use ⟨⟨.identifier, "f", 1⟩, 2⟩) paren [])]
    let setting : Setting := ⟨after.locals.extend found, fun _ => 0⟩
    let run := fun steps => Machine.run setting steps (after.starts program (.working ""))
    Session.new.Accepts source program found after ∧
    (∃ steps callee below failure, Visited setting (run steps) ∧
      (run steps).Calls callee paren [] below ∧ arity? callee = some 0 ∧
      callsOn (run steps).pending = 4096 ∧
      step setting (run steps)
        = { run steps with control := .complete (.failed failure), pending := below } ∧
      failure.token = paren ∧ failure.cause.message = "Stack overflow.") ∧
    ∃ steps, ∀ fuel, steps ≤ fuel →
      (Session.new.run (fun _ => 0) fuel (.working "") source).1
        = .failed ⟨paren, .stackOverflow⟩ := by
  let name : Token := ⟨.identifier, "f", 1⟩
  let paren : Token := ⟨.rightParen, ")", 1⟩
  let call (id : Nat) : Expr := .call (.use ⟨name, id⟩) paren []
  let f : FunctionDecl := ⟨name, [], [.expression (call 1)]⟩
  let program : List Stmt := [.function f, .expression (call 2)]
  let after : Session := { Session.new with lastId := 2 }
  let setting : Setting := ⟨after.locals.extend [], fun _ => 0⟩
  have haccepts : Session.new.Accepts "fun f() \x7b f(); \x7d f();" program [] after := by
    unfold Accepts
    cbv
  let nodes : List Node := [
    .program program, .stmt (.function f), .function f, .stmt (.expression (call 1)),
    .expr (call 1), .expr (.use ⟨name, 1⟩), .stmt (.expression (call 2)), .expr (call 2),
    .expr (.use ⟨name, 2⟩)]
  have hparts : ∀ n ∈ nodes, ∀ part ∈ n.parts, part ∈ nodes := by
    simp [nodes, program, f, call, Node.parts, Node.ofStmt, Node.ofExpr, Node.ofFunction]
  have hplain : ∀ n ∈ nodes, n.isLoop = false := by
    simp [nodes, program, f, call, Node.isLoop]
  have hnodes (p : Place) (hp : p.IsIn program) : p.node ∈ nodes :=
    hp.of_hereditary (P := (· ∈ nodes)) hparts List.mem_cons_self
  have hcircular : Circular setting ⟨name, 1⟩ paren ⟨f, Memory.globals, false⟩ :=
    ⟨rfl, rfl, rfl⟩
  have hfirst : Repeats ⟨name, 1⟩ paren 0 ⟨f, Memory.globals, false⟩
      (Machine.run setting 6 (after.starts program (.working ""))) :=
    ⟨⟨[.discard, .sequence []], .plain rfl rfl⟩, rfl⟩
  have hroom : (Machine.run setting 6 (after.starts program (.working ""))).depth ≤ maxDepth :=
    Nat.zero_le _
  refine ⟨[], after, haccepts, ?_, ?_⟩
  · obtain ⟨steps, ⟨⟨below, hcalls⟩, -⟩, hdepth⟩ := hfirst.reaches hcircular hroom (Nat.le_refl _)
    rw [← run_add] at hcalls hdepth
    have hvisited : Visited setting
        (Machine.run setting (6 + steps) (after.starts program (.working ""))) :=
      ⟨.new, after, _, program, [], _, .working "", 6 + steps, .new, haccepts, rfl, rfl⟩
    obtain ⟨failure, hstep, htoken, hmessage⟩ :=
      recursion_ends.2.1 setting _ _ _ _ _ hcalls hcircular.arity hdepth
    exact ⟨6 + steps, _, below, failure, hvisited, hcalls, hcircular.arity,
      (recursion_ends.1 _ _ hvisited).1.symm.trans hdepth, hstep, htoken, hmessage⟩
  · obtain ⟨more, hended⟩ := hfirst.overflows hcircular hroom
    rw [← run_add] at hended
    obtain ⟨steps, hsteps⟩ := recursion_ends.2.2 _ program [] after haccepts
      (fun p hp => hplain _ (hnodes p hp)) (fun _ => 0) (.working "")
    refine ⟨steps, fun fuel hfuel => ?_⟩
    rw [(hsteps fuel hfuel).1, ← (hsteps _ (Nat.le_max_left steps (6 + more))).1, haccepts.run_eq]
    dsimp only
    rw [outcomeOf, run_mono (Nat.le_max_right steps (6 + more)) hended, hended]

end Lox.Session
