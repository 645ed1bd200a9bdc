/-
Where a statement stands while it is executed.

The stack under a statement tells what the statement is a part of: the statements behind
it, the branch or the block or the loop body that it stands in, and outside of all these
the program or the body of a function.  The loop that a `break` would leave is the innermost
of these loops, and a call starts anew without one (`Nest`).  If all functions are confined,
a statement never ends in a jump that nothing around it takes (`step_nested`), and a `break`
goes through the blocks between it and its loop and ends that (`break_ends_loop`).
-/
import Lox.Proofs.Machine.Stack
import Lox.Proofs.Machine.Values
import Lox.Proofs.Scope.Jumps

namespace Lox.Machine

variable {setting : Setting} {s : State}

/-! ### Kinds of pending work -/

/-- Work inside of an expression. -/
def Pending.isPart : Pending → Bool
  | .unary _ | .leftOperand _ _ | .rightOperand _ _ | .logical _ _ | .choice _ _
  | .assignment _ | .callee _ _ | .argument _ _ _ _ | .property _ | .setTarget _ _
  | .setValue _ _ => true
  | _ => false

/-- What ends a statement once the value of its expression is there. -/
def Pending.isLast : Pending → Bool
  | .discard | .print _ | .define _ => true
  | _ => false

/-- Work that a value is handed to. -/
def Pending.takesValue : Pending → Bool
  | .sequence _ | .loopBody _ _ | .leaveBlock _ | .leaveCall _ _ => false
  | _ => true

/-- The condition and the body of a loop. -/
abbrev Loop := Expr × Stmt

/-! ### Places of statements -/

mutual

/-- A statement is executed on top of a stack: in a call or not, as `call` says, and in a
loop of that call or of none. -/
inductive Nest : (call : Bool) → (loop : Option Loop) → Stmt → List Pending → Prop
  | row {call : Bool} {loop : Option Loop} {s : Stmt} {rest : List Stmt} {below : List Pending}
      (h : Row call loop (s :: rest) below) : Nest call loop s (.sequence rest :: below)
  | onTrue {call : Bool} {loop : Option Loop} {condition : Expr} {s : Stmt}
      {onFalse : Option Stmt} {pending : List Pending}
      (h : Nest call loop (.ifElse condition s onFalse) pending) : Nest call loop s pending
  | onFalse {call : Bool} {loop : Option Loop} {condition : Expr} {onTrue s : Stmt}
      {pending : List Pending} (h : Nest call loop (.ifElse condition onTrue (some s)) pending) :
      Nest call loop s pending
  | body {call : Bool} {loop : Option Loop} {condition : Expr} {s : Stmt} {below : List Pending}
      (h : Nest call loop (.whileLoop condition s) below) :
      Nest call (some (condition, s)) s (.loopBody condition s :: below)

/-- What is left of a row of statements is executed on top of a stack. -/
inductive Row : (call : Bool) → (loop : Option Loop) → List Stmt → List Pending → Prop
  | program {row : List Stmt} (h : ∀ s ∈ row, s.Confined false false) : Row false none row []
  | block {call : Bool} {loop : Option Loop} {before row : List Stmt} {env : Env}
      {below : List Pending} (h : Nest call loop (.block (before ++ row)) below) :
      Row call loop row (.leaveBlock env :: below)
  | call {row : List Stmt} {env : Env} {answer : Answer} {below : List Pending}
      (h : ∀ s ∈ row, s.Confined true false) (hbelow : Expects below) :
      Row true none row (.leaveCall env answer :: below)

/-- The value of an expression is expected on top of a stack. -/
inductive Expects : List Pending → Prop
  | part {task : Pending} {below : List Pending} (hkind : task.isPart = true)
      (h : Expects below) : Expects (task :: below)
  | last {call : Bool} {loop : Option Loop} {s : Stmt} {task : Pending} {below : List Pending}
      (hkind : task.isLast = true) (h : Nest call loop s below) : Expects (task :: below)
  | returning {loop : Option Loop} {s : Stmt} {below : List Pending} (h : Nest true loop s below) :
      Expects (.returning :: below)
  | branch {call : Bool} {loop : Option Loop} {condition : Expr} {onTrue : Stmt}
      {onFalse : Option Stmt} {below : List Pending}
      (h : Nest call loop (.ifElse condition onTrue onFalse) below) :
      Expects (.branch onTrue onFalse :: below)
  | loopTest {call : Bool} {loop : Option Loop} {condition : Expr} {body : Stmt}
      {below : List Pending} (h : Nest call loop (.whileLoop condition body) below) :
      Expects (.loopTest condition body :: below)
  | inherit {call : Bool} {loop : Option Loop} {name : Token} {superclass : Occurrence}
      {methods : List FunctionDecl} {below : List Pending}
      (h : Nest call loop (.classDecl name (some superclass) methods) below) :
      Expects (.inherit name superclass methods :: below)

end

mutual

/-- Where a statement stands it is confined to what is around it. -/
theorem Nest.confined {call : Bool} {loop : Option Loop} {statement : Stmt}
    {pending : List Pending} (h : Nest call loop statement pending) :
    statement.Confined call loop.isSome :=
  match h with
  | .row h => h.confined _ List.mem_cons_self
  | .onTrue h => h.confined.of_onTrue
  | .onFalse h => h.confined.of_onFalse
  | .body h => h.confined.of_body

theorem Row.confined {call : Bool} {loop : Option Loop} {row : List Stmt}
    {pending : List Pending} (h : Row call loop row pending) :
    ∀ s ∈ row, s.Confined call loop.isSome :=
  match h with
  | .program h => h
  | .block h => fun s hs => h.confined.of_block s (List.mem_append_right _ hs)
  | .call h _ => h

end

theorem Row.tail {call : Bool} {loop : Option Loop} {statement : Stmt} {row : List Stmt}
    {pending : List Pending} (h : Row call loop (statement :: row) pending) :
    Row call loop row pending := by
  cases h with
  | program h => exact .program (List.forall_mem_cons.mp h).2
  | @block _ _ before _ env below h =>
      rw [List.append_cons] at h
      exact .block h
  | call h hbelow => exact .call (List.forall_mem_cons.mp h).2 hbelow

/-- Only the statements of the program stand directly on the bottom of the stack. -/
theorem Nest.bottom {call : Bool} {loop : Option Loop} {statement : Stmt}
    {pending : List Pending} (h : Nest call loop statement pending) {rest : List Stmt}
    (hpending : pending = [.sequence rest]) : call = false ∧ loop = none :=
  match h with
  | .row h => by
      obtain ⟨-, rfl⟩ := List.cons.inj hpending
      cases h with
      | program _ => exact ⟨rfl, rfl⟩
  | .onTrue h => h.bottom hpending
  | .onFalse h => h.bottom hpending
  | .body _ => by simp at hpending

/-- Between a statement that is directly in the body of a function and the call there is
nothing but the statements behind it. -/
theorem Nest.body_of_call {call : Bool} {loop : Option Loop} {statement : Stmt}
    {pending : List Pending} (h : Nest call loop statement pending) {rest : List Stmt} {env : Env}
    {answer : Answer} {below : List Pending}
    (hpending : pending = .sequence rest :: .leaveCall env answer :: below) : loop = none :=
  match h with
  | .row h => by
      obtain ⟨-, rfl⟩ := List.cons.inj hpending
      cases h with
      | call _ _ => rfl
  | .onTrue h => h.body_of_call hpending
  | .onFalse h => h.body_of_call hpending
  | .body _ => by simp at hpending

theorem Nest.pending_ne_nil {call : Bool} {loop : Option Loop} {statement : Stmt}
    {pending : List Pending} (h : Nest call loop statement pending) : pending ≠ [] :=
  match h with
  | .row _ => List.cons_ne_nil _ _
  | .onTrue h => h.pending_ne_nil
  | .onFalse h => h.pending_ne_nil
  | .body _ => List.cons_ne_nil _ _

theorem Nest.pending_ne_leaveCall {call : Bool} {loop : Option Loop} {statement : Stmt}
    {pending : List Pending} (h : Nest call loop statement pending) {env : Env}
    {answer : Answer} {below : List Pending} : pending ≠ .leaveCall env answer :: below :=
  match h with
  | .row _ => by simp
  | .onTrue h => h.pending_ne_leaveCall
  | .onFalse h => h.pending_ne_leaveCall
  | .body _ => by simp

theorem Expects.takesValue {task : Pending} {below : List Pending} (h : Expects (task :: below)) :
    task.takesValue = true := by
  cases h with
  | part hkind _ => cases task <;> first | rfl | exact hkind
  | last hkind _ => cases task <;> first | rfl | exact hkind
  | _ => rfl

theorem Row.not_expects {call : Bool} {loop : Option Loop} {row : List Stmt}
    {pending : List Pending} (h : Row call loop row pending) : ¬Expects pending := by
  intro hexpects
  cases h with
  | program _ => cases hexpects
  | block _ => exact Bool.false_ne_true hexpects.takesValue
  | call _ _ => exact Bool.false_ne_true hexpects.takesValue

theorem Nest.not_expects {call : Bool} {loop : Option Loop} {statement : Stmt}
    {pending : List Pending} (h : Nest call loop statement pending) : ¬Expects pending :=
  match h with
  | .row _ => fun hexpects => Bool.false_ne_true hexpects.takesValue
  | .onTrue h => h.not_expects
  | .onFalse h => h.not_expects
  | .body _ => fun hexpects => Bool.false_ne_true hexpects.takesValue

/-- What lies under a row of statements expects no value. -/
theorem Nest.below_not_expects {call : Bool} {loop : Option Loop} {statement : Stmt}
    {pending : List Pending} (h : Nest call loop statement pending) {row : List Stmt}
    {below : List Pending} (hpending : pending = .sequence row :: below) : ¬Expects below :=
  match h with
  | .row h => by
      obtain ⟨-, rfl⟩ := List.cons.inj hpending
      exact h.not_expects
  | .onTrue h => h.below_not_expects hpending
  | .onFalse h => h.below_not_expects hpending
  | .body _ => by simp at hpending

/-! ### What statements end in -/

/-- How a statement may end where it stands. -/
inductive Completion.Allowed (call loop : Bool) : Completion → Prop
  | normal : Allowed call loop .normal
  | failed (failure : Failure) : Allowed call loop (.failed failure)
  | broken (h : loop = true) : Allowed call loop .broken
  | returned (h : call = true) (v : Value) : Allowed call loop (.returned v)

/-- Without anything around that would take it, a statement ends in no jump. -/
theorem Completion.Allowed.no_jump {c : Completion} (h : c.Allowed false false) :
    c = .normal ∨ ∃ failure, c = .failed failure := by
  cases h with
  | normal => exact .inl rfl
  | failed failure => exact .inr ⟨failure, rfl⟩
  | broken h => exact absurd h (by decide)
  | returned h v => exact absurd h (by decide)

/-- Without a loop a statement ends in no `break`. -/
theorem Completion.Allowed.no_break {call : Bool} {c : Completion} (h : c.Allowed call false) :
    c = .normal ∨ (∃ v, c = .returned v) ∨ ∃ failure, c = .failed failure := by
  cases h with
  | normal => exact .inl rfl
  | failed failure => exact .inr (.inr ⟨failure, rfl⟩)
  | broken h => exact absurd h (by decide)
  | returned h v => exact .inr (.inl ⟨v, rfl⟩)

/-- What is being done stands on top of what is pending. -/
inductive Nested : Control → List Pending → Prop
  | evaluate {e : Expr} {pending : List Pending} (h : Expects pending) :
      Nested (.evaluate e) pending
  | value {v : Value} {pending : List Pending} (h : Expects pending) : Nested (.value v) pending
  | execute {call : Bool} {loop : Option Loop} {s : Stmt} {pending : List Pending}
      (h : Nest call loop s pending) : Nested (.execute s) pending
  /-- A row of statements is about to be executed. -/
  | begun {call : Bool} {loop : Option Loop} {row : List Stmt} {below : List Pending}
      (h : Row call loop row below) : Nested (.complete .normal) (.sequence row :: below)
  /-- A statement is done. -/
  | done {call : Bool} {loop : Option Loop} {s : Stmt} {pending : List Pending} {c : Completion}
      (h : Nest call loop s pending) (hc : c.Allowed call loop.isSome) :
      Nested (.complete c) pending
  /-- A row of statements is done or was left. -/
  | left {call : Bool} {loop : Option Loop} {row : List Stmt} {below : List Pending}
      {c : Completion} (h : Row call loop row below) (hc : c.Allowed call loop.isSome) :
      Nested (.complete c) below
  /-- An expression has failed. -/
  | fell {failure : Failure} {pending : List Pending} (h : Expects pending) :
      Nested (.complete (.failed failure)) pending

/-- What a state is doing stands on top of what is pending in it. -/
def State.Nested (s : State) : Prop :=
  Machine.Nested s.control s.pending

/-! ### Expressions -/

theorem Settles.nested {s' : State} (h : Settles s s') (hpending : Expects s.pending) :
    s'.Nested := by
  cases h with
  | value m v => exact .value hpending
  | failed m failure => exact .fell hpending

/-- The functions of a state are confined. -/
abbrev State.Confined (s : State) : Prop :=
  s.All fun closure => closure.declaration.Confined

theorem evaluate_nested (hpending : Expects s.pending) (e : Expr) :
    (evaluate setting s e).Nested := by
  cases e with
  | literal value => exact .value hpending
  | group inner => exact .evaluate hpending
  | use occurrence => exact (lookup_settles s occurrence).nested hpending
  | this receiver => exact (lookup_settles s receiver).nested hpending
  | super keyword method => exact (inheritedMethod_settles s keyword method).nested hpending
  | _ => exact .evaluate (.part rfl hpending)

/-- A function is entered with a body from which only a `return` leads out. -/
theorem enter_nested (hpending : Expects s.pending) {closure : Closure}
    (hclosure : closure.declaration.Confined) (arguments : List Value) (answer : Answer) :
    (enter s closure arguments answer).Nested :=
  .begun (.call hclosure hpending)

theorem Called.nested {callee : Value} {paren : Token} {arguments : List Value} {t : State}
    (h : Called setting s paren arguments callee t) (hpending : Expects s.pending)
    (hcallee : callee.All fun closure => closure.declaration.Confined) : t.Nested := by
  cases h with
  | refused _ _ => exact .fell hpending
  | clock _ | plain _ _ => exact .value hpending
  | function _ => exact enter_nested hpending hcallee _ _
  | initialized _ hfind =>
      refine enter_nested ?_ ?_ arguments _
      · exact hpending
      · exact Class.All.find hcallee hfind 0

theorem resume_part_nested {v : Value} {task : Pending} (hpending : Expects s.pending)
    (hkind : task.isPart = true) (hv : v.All fun closure => closure.declaration.Confined)
    (htask : task.All fun closure => closure.declaration.Confined) :
    (resume setting s v task).Nested := by
  cases task with
  | unary operator => exact (operate_settles s operator _).nested hpending
  | leftOperand operator right => exact .evaluate (.part rfl hpending)
  | rightOperand operator left => exact (operate_settles s operator _).nested hpending
  | logical operator right =>
      rcases resume_logical setting s v operator right with hnext | hnext <;> rw [hnext]
      · exact .value hpending
      · exact .evaluate hpending
  | choice onTrue onFalse => exact .evaluate hpending
  | assignment target => exact (assign_settles s target v).nested hpending
  | callee paren arguments =>
      cases arguments with
      | nil => exact (call_called setting s v paren []).nested hpending hv
      | cons first rest => exact .evaluate (.part rfl hpending)
  | argument callee paren before after =>
      cases after with
      | nil => exact (call_called setting s callee paren _).nested hpending htask.1
      | cons next rest => exact .evaluate (.part rfl hpending)
  | property name => exact (getProperty_settles s v name).nested hpending
  | setTarget name value =>
      cases v with
      | object address class_ => exact .evaluate (.part rfl hpending)
      | _ => exact .fell hpending
  | setValue address name => exact .value hpending
  | _ => exact absurd hkind (by simp [Pending.isPart])

/-! ### Statements -/

section Statements

variable {call : Bool} {loop : Option Loop} {statement : Stmt}

theorem Finished.nested {name : Token} {superclass : Option Class} {methods : List FunctionDecl}
    {t : State} (h : Finished s name superclass methods t)
    (hpending : Nest call loop statement s.pending) : t.Nested := by
  cases h with
  | done a _ => exact .done hpending .normal
  | failed => exact .done hpending (.failed _)

theorem execute_nested (hpending : Nest call loop statement s.pending) :
    (execute s statement).Nested := by
  have hconfined := hpending.confined
  cases statement with
  | expression value => exact .evaluate (.last rfl hpending)
  | print keyword value => exact .evaluate (.last rfl hpending)
  | var name initializer =>
      cases initializer with
      | none => exact .done hpending .normal
      | some value => exact .evaluate (.last rfl hpending)
  | block body => exact .begun (.block (List.nil_append body ▸ hpending))
  | ifElse condition onTrue onFalse => exact .evaluate (.branch hpending)
  | whileLoop condition body => exact .evaluate (.loopTest hpending)
  | breakLoop keyword => exact .done hpending (.broken hconfined.loop_of_break)
  | returnWith keyword value =>
      obtain rfl := hconfined.call_of_return
      cases value with
      | none => exact .done hpending (.returned rfl .nil)
      | some value => exact .evaluate (.returning hpending)
  | function declaration => exact .done hpending .normal
  | classDecl name superclass methods =>
      cases superclass with
      | none =>
          let defined : State := { s with memory := s.memory.define s.env name.lexeme .nil }
          have hdefined : Nest call loop (.classDecl name none methods) defined.pending := hpending
          exact (finishClass_finished defined name none methods).nested hdefined
      | some occurrence => exact .evaluate (.inherit hpending)

theorem resume_last_nested {v : Value} {task : Pending}
    (hpending : Nest call loop statement s.pending) (hkind : task.isLast = true) :
    (resume setting s v task).Nested := by
  cases task with
  | discard => exact .done hpending .normal
  | print keyword =>
      rcases resume_print setting s v keyword with ⟨_, hnext⟩ | ⟨_, _, hnext⟩ <;> rw [hnext]
      · exact .done hpending .normal
      · exact .done hpending (.failed _)
  | define name => exact .done hpending .normal
  | _ => exact absurd hkind (by simp [Pending.isLast])

/-- A value goes on to what expects it. -/
theorem resume_nested {v : Value} {task : Pending} (h : Expects (task :: s.pending))
    (hv : v.All fun closure => closure.declaration.Confined)
    (htask : task.All fun closure => closure.declaration.Confined) :
    (resume setting s v task).Nested := by
  cases h with
  | part hkind hbelow => exact resume_part_nested hbelow hkind hv htask
  | last hkind hbelow => exact resume_last_nested hbelow hkind
  | returning hbelow => exact .done hbelow (.returned rfl v)
  | @branch _ _ _ onTrue onFalse _ hbelow =>
      rcases resume_branch setting s v onTrue onFalse with
        hnext | ⟨statement, rfl, hnext⟩ | ⟨-, hnext⟩ <;> rw [hnext]
      · exact .execute (.onTrue hbelow)
      · exact .execute (.onFalse hbelow)
      · exact .done hbelow .normal
  | @loopTest _ _ condition body _ hbelow =>
      rcases resume_loopTest setting s v condition body with hnext | hnext <;> rw [hnext]
      · exact .execute (.body hbelow)
      · exact .done hbelow .normal
  | @inherit _ _ name superclass methods _ hbelow =>
      cases v with
      | classValue class_ => exact (finishClass_finished s name (some class_) methods).nested hbelow
      | _ => exact .done hbelow (.failed _)

/-- The end of a statement goes to what the statement stands in. -/
theorem Nest.unwind {call : Bool} {loop : Option Loop} {statement : Stmt} {c : Completion}
    {pending : List Pending} (h : Nest call loop statement pending)
    (hc : c.Allowed call loop.isSome) {task : Pending} (hpending : pending = task :: s.pending) :
    (unwind s c task).Nested :=
  match h with
  | @Nest.row _ _ _ rest _ h => by
      obtain ⟨rfl, hbelow⟩ := List.cons.inj hpending
      rw [hbelow] at h
      rcases unwind_sequence s c rest with ⟨next, others, -, rfl, hnext⟩ | hnext <;> rw [hnext]
      · exact .execute (.row h.tail)
      · exact .left h hc
  | .onTrue h => h.unwind hc hpending
  | .onFalse h => h.unwind hc hpending
  | .body h => by
      obtain ⟨rfl, hbelow⟩ := List.cons.inj hpending
      rw [hbelow] at h
      cases hc with
      | normal => exact .evaluate (.loopTest h)
      | failed failure => exact .done h (.failed failure)
      | broken _ => exact .done h .normal
      | returned hcall v => exact .done h (.returned hcall v)

/-- A failure goes through whatever expects a value. -/
theorem Expects.unwind {failure : Failure} {task : Pending} (h : Expects (task :: s.pending)) :
    (Machine.unwind s (.failed failure) task).Nested := by
  cases h with
  | part hkind h =>
      cases task with
      | sequence _ | loopBody _ _ | leaveBlock _ | leaveCall _ _ =>
          exact absurd hkind (by simp [Pending.isPart])
      | _ => exact .fell h
  | last hkind h =>
      cases task with
      | sequence _ | loopBody _ _ | leaveBlock _ | leaveCall _ _ =>
          exact absurd hkind (by simp [Pending.isLast])
      | _ => exact .done h (.failed failure)
  | returning h => exact .done h (.failed failure)
  | branch h => exact .done h (.failed failure)
  | loopTest h => exact .done h (.failed failure)
  | inherit h => exact .done h (.failed failure)

theorem unwind_nested {c : Completion} {task : Pending}
    (h : Machine.Nested (.complete c) (task :: s.pending)) : (Machine.unwind s c task).Nested := by
  cases h with
  | @begun _ _ row _ h =>
      cases row with
      | nil => exact .left h .normal
      | cons next rest => exact .execute (.row h)
  | done h hc => exact h.unwind hc rfl
  | left h hc =>
      cases h with
      | block h => exact .done h hc
      | call _ hbelow =>
          cases c with
          | failed failure => exact .fell hbelow
          | _ => exact .value hbelow
  | fell h => exact h.unwind

end Statements

/-- **No statement ends in a jump that nothing around it takes.** -/
theorem step_nested (h : s.Nested) (hconfined : s.Confined) : (step setting s).Nested := by
  obtain ⟨control, pending, env, depth, memory, sink⟩ := s
  cases control with
  | evaluate e =>
      cases h with
      | evaluate h => exact evaluate_nested h e
  | execute statement =>
      cases h with
      | execute h => exact execute_nested h
  | value v =>
      cases h with
      | value h =>
          cases pending with
          | nil => cases h
          | cons task below =>
              exact resume_nested (s := ⟨.value v, below, env, depth, memory, sink⟩) h
                hconfined.control (hconfined.pending task List.mem_cons_self)
  | complete c =>
      cases pending with
      | nil => exact h
      | cons task below =>
          exact unwind_nested (s := ⟨.complete c, below, env, depth, memory, sink⟩) h

/-! ### What the functions of a state are -/

/-- All functions that are declared where statements are confined are confined. -/
theorem step_confined (h : s.Nested) (hconfined : s.Confined) : (step setting s).Confined := by
  unfold State.Nested at h
  refine step_all hconfined (fun declaration hcontrol => ?_) (fun name methods hcontrol => ?_)
    fun class_ name occurrence methods below hcontrol hpending => ?_
  · rw [hcontrol] at h
    cases h with
    | execute h => exact h.confined.of_function
  · rw [hcontrol] at h
    cases h with
    | execute h => exact fun f hf _ => h.confined.of_methods f hf
  · rw [hcontrol, hpending] at h
    cases h with
    | value h =>
        cases h with
        | part hkind _ => exact absurd hkind (by simp [Pending.isPart])
        | last hkind _ => exact absurd hkind (by simp [Pending.isLast])
        | inherit h => exact fun _ f hf _ => h.confined.of_methods f hf

/-! ### Leaving a loop -/

/-- A statement stands in another one, with no loop and no function between the two; the
stack holds the blocks that are between. -/
inductive Inside (outer : Stmt) : Stmt → List Pending → Prop
  | self : Inside outer outer []
  | onTrue {condition : Expr} {s : Stmt} {onFalse : Option Stmt} {tasks : List Pending}
      (h : Inside outer (.ifElse condition s onFalse) tasks) : Inside outer s tasks
  | onFalse {condition : Expr} {onTrue s : Stmt} {tasks : List Pending}
      (h : Inside outer (.ifElse condition onTrue (some s)) tasks) : Inside outer s tasks
  | block {before rest : List Stmt} {s : Stmt} {env : Env} {tasks : List Pending}
      (h : Inside outer (.block (before ++ s :: rest)) tasks) :
      Inside outer s (.sequence rest :: .leaveBlock env :: tasks)

/-- The frames that are open once all blocks on a stack are left. -/
def outerEnv : Env → List Pending → Env
  | env, [] => env
  | _, .leaveBlock env :: tasks => outerEnv env tasks
  | env, _ :: tasks => outerEnv env tasks

mutual

/-- A statement in a loop stands inside the body of that loop. -/
theorem Nest.inside {call : Bool} {loop : Option Loop} {statement : Stmt}
    {pending : List Pending} (h : Nest call loop statement pending) {condition : Expr}
    {body : Stmt} (hloop : loop = some (condition, body)) :
    ∃ tasks below, pending = tasks ++ .loopBody condition body :: below ∧
      Inside body statement tasks :=
  match h with
  | .row h => h.inside rfl hloop
  | .onTrue h => by
      obtain ⟨tasks, below, hpending, hinside⟩ := h.inside hloop
      exact ⟨tasks, below, hpending, .onTrue hinside⟩
  | .onFalse h => by
      obtain ⟨tasks, below, hpending, hinside⟩ := h.inside hloop
      exact ⟨tasks, below, hpending, .onFalse hinside⟩
  | .body _ => by
      obtain ⟨rfl, rfl⟩ := Prod.mk.inj (Option.some.inj hloop)
      exact ⟨[], _, rfl, .self⟩

theorem Row.inside {call : Bool} {loop : Option Loop} {statement : Stmt} {row rest : List Stmt}
    {under : List Pending} (h : Row call loop row under) (hrow : row = statement :: rest)
    {condition : Expr} {body : Stmt} (hloop : loop = some (condition, body)) :
    ∃ tasks below, .sequence rest :: under = tasks ++ .loopBody condition body :: below ∧
      Inside body statement tasks :=
  match h with
  | .program _ => by simp at hloop
  | .block h => by
      obtain ⟨tasks, below, rfl, hinside⟩ := h.inside hloop
      rw [hrow] at hinside
      exact ⟨_, below, rfl, .block hinside⟩
  | .call _ _ => by simp at hloop

end

/-- A `break` leaves all blocks that are between it and its loop. -/
theorem Inside.run_broken {outer statement : Stmt} {tasks : List Pending}
    (h : Inside outer statement tasks) (s : State) (hcontrol : s.control = .complete .broken)
    {below : List Pending} (hpending : s.pending = tasks ++ below) :
    run setting tasks.length s = { s with pending := below, env := outerEnv s.env tasks } := by
  induction h generalizing s with
  | self =>
      rw [← show s.pending = below from hpending]
      rfl
  | onTrue _ ih => exact ih s hcontrol hpending
  | onFalse _ ih => exact ih s hcontrol hpending
  | @block before rest _ env tasks _ ih =>
      obtain ⟨control, pending, inner, depth, memory, sink⟩ := s
      obtain rfl : control = .complete .broken := hcontrol
      obtain rfl : pending = .sequence rest :: .leaveBlock env :: (tasks ++ below) := hpending
      have hsteps : step setting (step setting
          ⟨.complete .broken, .sequence rest :: .leaveBlock env :: (tasks ++ below), inner, depth,
            memory, sink⟩) = ⟨.complete .broken, tasks ++ below, env, depth, memory, sink⟩ := rfl
      rw [List.length_cons, List.length_cons, run_succ, run_succ, hsteps, ih _ rfl rfl]
      rfl

/-- **A `break` ends the innermost loop around it.** -/
theorem break_ends_loop (h : s.Nested) {keyword : Token}
    (hcontrol : s.control = .execute (.breakLoop keyword)) :
    ∃ condition body tasks below,
      s.pending = tasks ++ .loopBody condition body :: below ∧
      Inside body (.breakLoop keyword) tasks ∧
      run setting (tasks.length + 2) s
        = { s with
            control := .complete .normal
            pending := below
            env := outerEnv s.env tasks } := by
  unfold State.Nested at h
  rw [hcontrol] at h
  cases h with
  | @execute call loop _ _ h =>
      obtain ⟨⟨condition, body⟩, hloop⟩ :=
        Option.isSome_iff_exists.mp h.confined.loop_of_break
      obtain ⟨tasks, below, hpending, hinside⟩ := h.inside hloop
      have hstep : step setting s = { s with control := .complete .broken } := by
        unfold step
        rw [hcontrol]
        rfl
      refine ⟨condition, body, tasks, below, hpending, hinside, ?_⟩
      rw [Nat.add_comm tasks.length 2, Nat.add_assoc 1 1, Nat.add_comm 1 (1 + tasks.length),
        run_succ, hstep, Nat.add_comm 1, run_add,
        hinside.run_broken { s with control := .complete .broken } rfl hpending]
      rfl

end Lox.Machine
