/-
Operators that are known.

The machine knows what to do for each operator that a program can have between two operands.
An operator waits on the stack, first for the left operand and then for the right one, and it
gets there only from an expression that is evaluated.  So if the operators of all trees are
known then so are those that wait, and no run fails because of an operator that is not
(`State.Known.cause`).
-/
import Lox.Proofs.Machine.Parts
import Lox.Proofs.Syntax.Shapes

namespace Lox

/-- An operator that is known does not fail for being unknown. -/
theorem Value.supported_of_binary {ε : Type} {operator : TokenKind} {left right : Value ε}
    {cause : Failure.Cause} (hknown : operator ∈ Role.operator.kinds)
    (h : Value.binary operator left right = .error cause) : cause ≠ .unsupportedOperator := by
  rintro rfl
  unfold Value.binary at h
  split at h
  · cases h
  · cases h
  · unfold Value.add at h
    split at h <;> cases h
  · rename_i hcomma hequal hplus
    split at h
    · simp only [Role.kinds, List.mem_cons, List.not_mem_nil, or_false] at hknown
      rcases hknown with rfl | rfl | rfl | rfl | rfl | rfl | rfl | rfl | rfl | rfl
      · exact hcomma rfl
      · exact hequal rfl
      · cases h
      · cases h
      · cases h
      · cases h
      · cases h
      · exact hplus rfl
      · unfold Value.arithmetic at h
        dsimp only at h
        split at h <;> cases h
      · cases h
    · cases h

theorem Value.supported_of_unary {ε : Type} {operator : TokenKind} {operand : Value ε}
    {cause : Failure.Cause} (h : Value.unary operator operand = .error cause) :
    cause ≠ .unsupportedOperator := by
  rintro rfl
  unfold Value.unary at h
  split at h <;> cases h

namespace Machine

variable {setting : Setting} {s : State}

/-- What is being done has not failed because of an unknown operator. -/
def Control.Supported : Control → Prop
  | .complete (.failed failure) => failure.cause ≠ .unsupportedOperator
  | _ => True

/-- An operator that waits for an operand is known. -/
def Pending.Supported : Pending → Prop
  | .leftOperand operator _ | .rightOperand operator _ => operator.kind ∈ Role.operator.kinds
  | _ => True

/-- All operators that wait are known, and nothing has failed because of one that is not. -/
structure State.Supported (s : State) : Prop where
  control : s.control.Supported
  pending : ∀ task ∈ s.pending, task.Supported

/-! ### Operators, names, calls and classes -/

section Supported

variable (hpending : ∀ task ∈ s.pending, task.Supported)

include hpending

theorem failing_supported (token : Token) {cause : Failure.Cause}
    (hcause : cause ≠ .unsupportedOperator) : (s.failing token cause).Supported :=
  ⟨hcause, hpending⟩

theorem operate_supported (operator : Token) {result : Except Failure.Cause Value}
    (h : ∀ cause, result = .error cause → cause ≠ .unsupportedOperator) :
    (operate s operator result).Supported := by
  cases result with
  | ok v => exact ⟨trivial, hpending⟩
  | error cause => exact failing_supported hpending operator (h cause rfl)

theorem Settles.supported {t : State} (h : Settles s t)
    (hcause : ∀ failure, t.control = .complete (.failed failure) →
      failure.cause ≠ .unsupportedOperator) : t.Supported := by
  cases h with
  | value m v => exact ⟨trivial, hpending⟩
  | failed m failure => exact ⟨hcause failure rfl, hpending⟩

theorem enter_supported (closure : Closure) (arguments : List Value) (answer : Answer) :
    (enter s closure arguments answer).Supported :=
  ⟨trivial, List.forall_mem_cons.mpr ⟨trivial, List.forall_mem_cons.mpr ⟨trivial, hpending⟩⟩⟩

theorem Called.supported {callee : Value} {paren : Token} {arguments : List Value} {t : State}
    (h : Called setting s paren arguments callee t) : t.Supported := by
  cases h with
  | refused _ hcause => exact failing_supported hpending paren (by cases hcause <;> simp)
  | clock _ | plain _ _ => exact ⟨trivial, hpending⟩
  | function _ => exact enter_supported hpending _ arguments _
  | initialized _ _ =>
      refine enter_supported ?_ _ arguments _
      exact hpending

theorem Finished.supported {name : Token} {superclass : Option Class}
    {methods : List FunctionDecl} {t : State} (h : Finished s name superclass methods t) :
    t.Supported := by
  cases h with
  | done a _ => exact ⟨trivial, hpending⟩
  | failed => exact ⟨Failure.Cause.noConfusion, hpending⟩

/-! ### The four kinds of step -/

theorem evaluating_supported {task : Pending} {e : Expr} (htask : task.Supported) :
    (s.evaluating task e).Supported :=
  ⟨trivial, List.forall_mem_cons.mpr ⟨htask, hpending⟩⟩

theorem evaluate_supported {e : Expr} (he : e.Worded .kinds) :
    (evaluate setting s e).Supported := by
  cases he with
  | binary hoperator _ _ => exact evaluating_supported hpending hoperator
  | literal | group _ => exact ⟨trivial, hpending⟩
  | use _ | this _ =>
      refine (lookup_settles s _).supported hpending fun failure hfailed => ?_
      rw [lookup_failure hfailed]
      simp
  | super _ _ =>
      refine (inheritedMethod_settles s _ _).supported hpending fun failure hfailed => ?_
      rcases (inheritedMethod_inherited setting s _ _).failure hfailed with rfl | rfl | rfl <;> simp
  | unary _ _ | logical _ _ _ | conditional _ _ _ | assign _ _ | call _ _ _ | get _ _
  | set _ _ _ => exact evaluating_supported hpending trivial

theorem execute_supported (statement : Stmt) : (execute s statement).Supported := by
  cases statement with
  | var name initializer =>
      cases initializer with
      | none => exact ⟨trivial, hpending⟩
      | some value => exact evaluating_supported hpending trivial
  | returnWith keyword value =>
      cases value with
      | none => exact ⟨trivial, hpending⟩
      | some value => exact evaluating_supported hpending trivial
  | block body =>
      exact ⟨trivial, List.forall_mem_cons.mpr ⟨trivial, List.forall_mem_cons.mpr ⟨trivial, hpending⟩⟩⟩
  | classDecl name superclass methods =>
      let defined : State := { s with memory := s.memory.define s.env name.lexeme .nil }
      have hdefined : ∀ task ∈ defined.pending, task.Supported := hpending
      cases superclass with
      | none => exact (finishClass_finished defined name none methods).supported hdefined
      | some occurrence => exact evaluating_supported hdefined trivial
  | expression value | print _ value | ifElse value _ _ | whileLoop value _ =>
      exact evaluating_supported hpending trivial
  | breakLoop _ | function _ => exact ⟨trivial, hpending⟩

theorem resume_supported {v : Value} {task : Pending} (htask : task.Supported) :
    (resume setting s v task).Supported := by
  cases task with
  | unary operator =>
      exact operate_supported hpending operator fun _ => Value.supported_of_unary
  | leftOperand operator right => exact evaluating_supported hpending htask
  | rightOperand operator left =>
      exact operate_supported hpending operator fun _ => Value.supported_of_binary htask
  | logical operator right =>
      rcases resume_logical setting s v operator right with hnext | hnext <;> rw [hnext] <;>
        exact ⟨trivial, hpending⟩
  | assignment target =>
      refine (assign_settles s target v).supported hpending fun failure hfailed => ?_
      rw [assign_failure hfailed]
      simp
  | callee paren arguments =>
      cases arguments with
      | nil => exact (call_called setting s v paren []).supported hpending
      | cons first rest => exact evaluating_supported hpending trivial
  | argument callee paren before after =>
      cases after with
      | nil => exact (call_called setting s callee paren _).supported hpending
      | cons next rest => exact evaluating_supported hpending trivial
  | property name =>
      refine (getProperty_settles s v name).supported hpending fun failure hfailed => ?_
      rcases (getProperty_got s v name).failure hfailed with rfl | rfl <;> simp
  | setTarget name value =>
      cases v with
      | object address class_ => exact evaluating_supported hpending trivial
      | _ => exact failing_supported hpending name (by simp)
  | print keyword =>
      rcases resume_print setting s v keyword with ⟨_, hnext⟩ | ⟨_, _, hnext⟩ <;> rw [hnext]
      · exact ⟨trivial, hpending⟩
      · exact ⟨Failure.Cause.noConfusion, hpending⟩
  | branch onTrue onFalse =>
      rcases resume_branch setting s v onTrue onFalse with hnext | ⟨_, _, hnext⟩ | ⟨_, hnext⟩ <;>
        rw [hnext] <;> exact ⟨trivial, hpending⟩
  | loopTest condition body =>
      rcases resume_loopTest setting s v condition body with hnext | hnext <;> rw [hnext]
      · exact ⟨trivial, List.forall_mem_cons.mpr ⟨trivial, hpending⟩⟩
      · exact ⟨trivial, hpending⟩
  | inherit name superclass methods =>
      cases v with
      | classValue class_ =>
          exact (finishClass_finished s name (some class_) methods).supported hpending
      | _ => exact failing_supported hpending superclass.name (by simp)
  | choice _ _ | setValue _ _ | discard | define _ | returning => exact ⟨trivial, hpending⟩
  | sequence _ | loopBody _ _ | leaveBlock _ | leaveCall _ _ =>
      exact ⟨trivial, List.forall_mem_cons.mpr ⟨htask, hpending⟩⟩

theorem unwind_supported {c : Completion} (hc : (Control.complete c).Supported) (task : Pending) :
    (unwind s c task).Supported := by
  cases task with
  | sequence rest =>
      rcases unwind_sequence s c rest with ⟨_, _, _, _, hnext⟩ | hnext <;> rw [hnext]
      · exact ⟨trivial, List.forall_mem_cons.mpr ⟨trivial, hpending⟩⟩
      · exact ⟨hc, hpending⟩
  | loopBody condition body =>
      cases c with
      | normal => exact evaluating_supported hpending trivial
      | broken => exact ⟨trivial, hpending⟩
      | _ => exact ⟨hc, hpending⟩
  | leaveCall env answer =>
      cases c with
      | failed failure => exact ⟨hc, hpending⟩
      | _ => exact ⟨trivial, hpending⟩
  | _ => exact ⟨hc, hpending⟩

end Supported

/-- **Where all operators of the trees are known, so are those that wait.** -/
theorem step_supported (hof : s.Of (Node.Worded .kinds)) (h : s.Supported) :
    (step setting s).Supported := by
  have hexpr := hof.control
  obtain ⟨hcontrol, hpending⟩ := h
  obtain ⟨control, pending, env, depth, memory, sink⟩ := s
  cases control with
  | evaluate e => exact evaluate_supported hpending hexpr
  | execute statement => exact execute_supported hpending statement
  | value v =>
      cases pending with
      | nil => exact ⟨trivial, hpending⟩
      | cons task below =>
          obtain ⟨htask, hbelow⟩ := List.forall_mem_cons.mp hpending
          exact resume_supported (s := ⟨.value v, below, env, depth, memory, sink⟩) hbelow htask
  | complete c =>
      cases pending with
      | nil => exact ⟨hcontrol, hpending⟩
      | cons task below =>
          obtain ⟨htask, hbelow⟩ := List.forall_mem_cons.mp hpending
          exact unwind_supported (s := ⟨.complete c, below, env, depth, memory, sink⟩) hbelow
            hcontrol task

/-- The trees of a state, and the operators that wait in it. -/
structure State.Known (s : State) : Prop where
  trees : s.Of (Node.Worded .kinds)
  supported : s.Supported

theorem State.Known.step (h : s.Known) : (step setting s).Known :=
  ⟨step_of (Node.worded_hereditary .kinds) h.trees, step_supported h.trees h.supported⟩

/-- A program is about to be run, and all operators are known. -/
theorem State.Known.start {program : List Stmt} {memory : Memory}
    (hprogram : ∀ s ∈ program, s.Worded .kinds)
    (hmemory : memory.All fun closure => Declared (Node.Worded .kinds) closure.declaration)
    (env : Env) (depth : Nat) (sink : Sink) : (State.start program env depth memory sink).Known :=
  ⟨State.start_of hprogram hmemory, trivial, List.forall_mem_singleton.mpr trivial⟩

theorem run_known (h : s.Known) (steps : Nat) : (run setting steps s).Known := by
  induction steps generalizing s with
  | zero => exact h
  | succ steps ih =>
      rw [run_succ]
      exact ih h.step

/-- No run comes to an operator that is not known. -/
theorem State.Known.cause (h : s.Known) {failure : Failure}
    (hcontrol : s.control = .complete (.failed failure)) : failure.cause ≠ .unsupportedOperator := by
  have hsupported : s.control.Supported := h.supported.control
  rw [hcontrol] at hsupported
  exact hsupported

end Machine

end Lox
