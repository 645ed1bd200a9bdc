/-
What the machine works on are parts of the program.

The machine takes its program apart and never puts a tree together: what it evaluates, what it
executes and what is still to be done are parts of the program, and so is every function that
it holds.  So whatever is true of the program and goes over from a part to the parts in it is
true of everything that the machine works on (`step_of`).
-/
import Lox.Proofs.Machine.Stack
import Lox.Proofs.Machine.Values
import Lox.Proofs.Syntax.Places

namespace Lox

variable {P : Node → Prop}

namespace Machine

variable {setting : Setting} {s : State}

section Definitions

variable (P)

/-- The tree that is worked on. -/
def Control.Of : Control → Prop
  | .evaluate e => P (.expr e)
  | .execute s => P (.stmt s)
  | _ => True

/-- The trees that are kept for later. -/
def Pending.Of : Pending → Prop
  | .leftOperand _ right | .logical _ right => P (.expr right)
  | .choice onTrue onFalse => P (.expr onTrue) ∧ P (.expr onFalse)
  | .callee _ arguments => ∀ e ∈ arguments, P (.expr e)
  | .argument _ _ _ after => ∀ e ∈ after, P (.expr e)
  | .setTarget _ value => P (.expr value)
  | .branch onTrue onFalse => P (.stmt onTrue) ∧ ∀ s ∈ onFalse, P (.stmt s)
  | .loopTest condition body | .loopBody condition body => P (.stmt (.whileLoop condition body))
  | .inherit _ _ methods => ∀ f ∈ methods, P (.method f)
  | .sequence rest => ∀ s ∈ rest, P (.stmt s)
  | _ => True

/-- The declaration of a function or a method. -/
abbrev Declared (f : FunctionDecl) : Prop :=
  P (.function f) ∨ P (.method f)

/-- All trees that a state holds. -/
structure State.Of (s : State) : Prop where
  control : s.control.Of P
  pending : ∀ task ∈ s.pending, task.Of P
  functions : s.All fun closure => Declared P closure.declaration

/-- The trees that are worked on now or later. -/
structure State.Works (s : State) : Prop where
  control : s.control.Of P
  pending : ∀ task ∈ s.pending, task.Of P

end Definitions

theorem Settles.works {s' : State} (h : Settles s s') (hpending : ∀ task ∈ s.pending, task.Of P) :
    s'.Works P := by
  cases h with
  | value m v => exact ⟨trivial, hpending⟩
  | failed m failure => exact ⟨trivial, hpending⟩

section Works

variable (hP : Node.Hereditary P) (hpending : ∀ task ∈ s.pending, task.Of P)

include hP in
/-- The statements of a body are parts of the function. -/
theorem body_of {f : FunctionDecl} (h : Declared P f) : ∀ s ∈ f.body, P (.stmt s) := by
  intro s hs
  have hpart : Node.stmt s ∈ Node.ofFunction f :=
    List.mem_append_right _ (List.mem_map_of_mem hs)
  exact h.elim (hP _ · _ hpart) (hP _ · _ hpart)

include hpending

theorem evaluating_works {task : Pending} {e : Expr} (htask : task.Of P) (he : P (.expr e)) :
    (s.evaluating task e).Works P :=
  ⟨he, List.forall_mem_cons.mpr ⟨htask, hpending⟩⟩

theorem Finished.works {name : Token} {superclass : Option Class} {methods : List FunctionDecl}
    {t : State} (h : Finished s name superclass methods t) : t.Works P := by
  cases h <;> exact ⟨trivial, hpending⟩

include hP

theorem enter_works {closure : Closure} (h : Declared P closure.declaration)
    (arguments : List Value) (answer : Answer) : (enter s closure arguments answer).Works P :=
  ⟨trivial, List.forall_mem_cons.mpr
    ⟨body_of hP h, List.forall_mem_cons.mpr ⟨trivial, hpending⟩⟩⟩

theorem Called.works {callee : Value} {paren : Token} {arguments : List Value} {t : State}
    (h : Called setting s paren arguments callee t)
    (hcallee : callee.All fun closure => Declared P closure.declaration) : t.Works P := by
  cases h with
  | refused _ _ | clock _ | plain _ _ => exact ⟨trivial, hpending⟩
  | function _ => exact enter_works hP hpending hcallee _ _
  | initialized _ hfind =>
      refine enter_works hP ?_ ?_ arguments _
      · exact hpending
      · exact Class.All.find hcallee hfind 0

theorem evaluate_works {e : Expr} (he : P (.expr e)) : (evaluate setting s e).Works P := by
  have hparts := hP _ he
  cases e with
  | literal value => exact ⟨trivial, hpending⟩
  | use occurrence => exact (lookup_settles s occurrence).works hpending
  | this receiver => exact (lookup_settles s receiver).works hpending
  | super keyword method => exact (inheritedMethod_settles s keyword method).works hpending
  | group inner => exact ⟨hparts _ (.head _), hpending⟩
  | unary operator operand =>
      exact evaluating_works hpending trivial (hparts _ (.head _))
  | assign target value => exact evaluating_works hpending trivial (hparts _ (.head _))
  | get object property => exact evaluating_works hpending trivial (hparts _ (.head _))
  | binary operator left right =>
      exact evaluating_works hpending (hparts _ (.tail _ (.head _))) (hparts _ (.head _))
  | logical operator left right =>
      exact evaluating_works hpending (hparts _ (.tail _ (.head _))) (hparts _ (.head _))
  | conditional condition onTrue onFalse =>
      exact evaluating_works hpending
        ⟨hparts _ (.tail _ (.head _)), hparts _ (.tail _ (.tail _ (.head _)))⟩
        (hparts _ (.head _))
  | call callee paren arguments =>
      exact evaluating_works hpending
        (fun e he => hparts _ (.tail _ (List.mem_map_of_mem he))) (hparts _ (.head _))
  | set object property value =>
      exact evaluating_works hpending (hparts _ (.head _)) (hparts _ (.tail _ (.head _)))

theorem execute_works {statement : Stmt} (h : P (.stmt statement)) :
    (execute s statement).Works P := by
  have hparts := hP _ h
  cases statement with
  | expression value => exact evaluating_works hpending trivial (hparts _ (.head _))
  | print keyword value => exact evaluating_works hpending trivial (hparts _ (.head _))
  | var name initializer =>
      cases initializer with
      | none => exact ⟨trivial, hpending⟩
      | some value => exact evaluating_works hpending trivial (hparts _ (.head _))
  | block body =>
      exact ⟨trivial, List.forall_mem_cons.mpr
        ⟨fun s hs => hparts _ (List.mem_map_of_mem hs),
          List.forall_mem_cons.mpr ⟨trivial, hpending⟩⟩⟩
  | ifElse condition onTrue onFalse =>
      refine evaluating_works hpending ⟨hparts _ (.tail _ (.head _)), fun s hs => ?_⟩
        (hparts _ (.head _))
      exact hparts _ (.tail _ (.tail _ (List.mem_map_of_mem (Option.mem_toList.mpr hs))))
  | whileLoop condition body => exact evaluating_works hpending h (hparts _ (.head _))
  | returnWith keyword value =>
      cases value with
      | none => exact ⟨trivial, hpending⟩
      | some value => exact evaluating_works hpending trivial (hparts _ (.head _))
  | classDecl name superclass methods =>
      let defined : State := { s with memory := s.memory.define s.env name.lexeme .nil }
      have hdefined : ∀ task ∈ defined.pending, task.Of P := hpending
      cases superclass with
      | none => exact (finishClass_finished defined name none methods).works hdefined
      | some occurrence =>
          exact evaluating_works hdefined
            (fun f hf => hparts _ (.tail _ (List.mem_map_of_mem hf))) (hparts _ (.head _))
  | breakLoop _ | function _ => exact ⟨trivial, hpending⟩

theorem resume_works {v : Value} {task : Pending} (htask : task.Of P)
    (hv : v.All fun closure => Declared P closure.declaration)
    (hvalues : task.All fun closure => Declared P closure.declaration) :
    (resume setting s v task).Works P := by
  cases task with
  | unary operator => exact (operate_settles s operator _).works hpending
  | leftOperand operator right => exact evaluating_works hpending trivial htask
  | rightOperand operator left => exact (operate_settles s operator _).works hpending
  | logical operator right =>
      rcases resume_logical setting s v operator right with hnext | hnext <;> rw [hnext]
      · exact ⟨trivial, hpending⟩
      · exact ⟨htask, hpending⟩
  | choice onTrue onFalse =>
      refine ⟨?_, hpending⟩
      show P (.expr (if v.isTruthy then onTrue else onFalse))
      split
      · exact htask.1
      · exact htask.2
  | assignment target => exact (assign_settles s target v).works hpending
  | callee paren arguments =>
      cases arguments with
      | nil => exact (call_called setting s v paren []).works hP hpending hv
      | cons first rest =>
          obtain ⟨hfirst, hrest⟩ := List.forall_mem_cons.mp htask
          exact evaluating_works hpending hrest hfirst
  | argument callee paren before after =>
      cases after with
      | nil => exact (call_called setting s callee paren _).works hP hpending hvalues.1
      | cons next rest =>
          obtain ⟨hnext, hrest⟩ := List.forall_mem_cons.mp htask
          exact evaluating_works hpending hrest hnext
  | property name => exact (getProperty_settles s v name).works hpending
  | setTarget name value =>
      cases v with
      | object address class_ => exact evaluating_works hpending trivial htask
      | _ => exact ⟨trivial, hpending⟩
  | print keyword =>
      rcases resume_print setting s v keyword with ⟨_, hnext⟩ | ⟨_, _, hnext⟩ <;> rw [hnext] <;>
        exact ⟨trivial, hpending⟩
  | branch onTrue onFalse =>
      rcases resume_branch setting s v onTrue onFalse with
        hnext | ⟨statement, rfl, hnext⟩ | ⟨-, hnext⟩ <;> rw [hnext]
      · exact ⟨htask.1, hpending⟩
      · exact ⟨htask.2 statement rfl, hpending⟩
      · exact ⟨trivial, hpending⟩
  | loopTest condition body =>
      rcases resume_loopTest setting s v condition body with hnext | hnext <;> rw [hnext]
      · exact ⟨hP _ htask _ (.tail _ (.head _)), List.forall_mem_cons.mpr ⟨htask, hpending⟩⟩
      · exact ⟨trivial, hpending⟩
  | inherit name superclass methods =>
      cases v with
      | classValue class_ => exact (finishClass_finished s name (some class_) methods).works hpending
      | _ => exact ⟨trivial, hpending⟩
  | setValue _ _ | discard | define _ | returning => exact ⟨trivial, hpending⟩
  | sequence _ | loopBody _ _ | leaveBlock _ | leaveCall _ _ =>
      exact ⟨trivial, List.forall_mem_cons.mpr ⟨htask, hpending⟩⟩

theorem unwind_works (c : Completion) {task : Pending} (htask : task.Of P) :
    (unwind s c task).Works P := by
  cases task with
  | sequence rest =>
      rcases unwind_sequence s c rest with ⟨next, others, -, rfl, hnext⟩ | hnext <;> rw [hnext]
      · obtain ⟨hstatement, hothers⟩ := List.forall_mem_cons.mp htask
        exact ⟨hstatement, List.forall_mem_cons.mpr ⟨hothers, hpending⟩⟩
      · exact ⟨trivial, hpending⟩
  | loopBody condition body =>
      cases c with
      | normal => exact evaluating_works hpending htask (hP _ htask _ (.head _))
      | _ => exact ⟨trivial, hpending⟩
  | leaveCall env answer => cases c <;> exact ⟨trivial, hpending⟩
  | _ => exact ⟨trivial, hpending⟩

end Works

theorem step_works (hP : Node.Hereditary P) (h : s.Of P) : (step setting s).Works P := by
  obtain ⟨hcontrol, hpending, hfunctions⟩ := h
  obtain ⟨control, pending, env, depth, memory, sink⟩ := s
  cases control with
  | evaluate e => exact evaluate_works hP hpending hcontrol
  | execute statement => exact execute_works hP hpending hcontrol
  | value v =>
      cases pending with
      | nil => exact ⟨trivial, hpending⟩
      | cons task below =>
          obtain ⟨htask, hbelow⟩ := List.forall_mem_cons.mp hpending
          exact resume_works (s := ⟨.value v, below, env, depth, memory, sink⟩) hP hbelow htask
            hfunctions.control (hfunctions.pending task List.mem_cons_self)
  | complete c =>
      cases pending with
      | nil => exact ⟨trivial, hpending⟩
      | cons task below =>
          obtain ⟨htask, hbelow⟩ := List.forall_mem_cons.mp hpending
          exact unwind_works (s := ⟨.complete c, below, env, depth, memory, sink⟩) hP hbelow c htask

/-- **A property that goes over from a part to the parts in it stays true of all trees.** -/
theorem step_of (hP : Node.Hereditary P) (h : s.Of P) : (step setting s).Of P := by
  have hworks : (step setting s).Works P := step_works hP h
  refine ⟨hworks.control, hworks.pending, step_all h.functions (fun declaration heq => ?_)
    (fun name methods heq f hf _ => ?_) fun class_ name occurrence methods below _ heq _ f hf _ => ?_⟩
  · have hstatement := h.control
    rw [heq] at hstatement
    exact .inl (hP _ hstatement _ (.head _))
  · have hstatement := h.control
    rw [heq] at hstatement
    exact .inr (hP _ hstatement _ (List.mem_map_of_mem hf))
  · have htask := h.pending (.inherit name occurrence methods)
      (by rw [heq]; exact List.mem_cons_self)
    exact .inr (htask f hf)

/-- A program that is about to be run where no function is known but those of a part. -/
theorem State.start_of {program : List Stmt} {env : Env} {depth : Nat} {memory : Memory}
    {sink : Sink} (hprogram : ∀ s ∈ program, P (.stmt s))
    (hmemory : memory.All fun closure => Declared P closure.declaration) :
    (State.start program env depth memory sink).Of P :=
  ⟨trivial, List.forall_mem_singleton.mpr hprogram, hmemory, trivial,
    List.forall_mem_singleton.mpr trivial⟩

end Machine

end Lox
