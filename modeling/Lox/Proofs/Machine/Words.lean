/-
Where failures point.

What a machine evaluates and executes are parts of the programs that were run, and so are the
bodies of the functions that it holds.  So a failure points at a token of one of them
(`run_worded`).  The two operators that an inequality is split into are tokens of no program;
but these two never fail.
-/
import Lox.Proofs.Machine.Values
import Lox.Proofs.Syntax.Words

namespace Lox

theorem FunctionDecl.Worded.of_body {v : Vocabulary} {f : FunctionDecl} (h : f.Worded v) :
    ∀ s ∈ f.body, s.Worded v := by
  cases h with
  | mk _ _ hbody => exact hbody

namespace Machine

variable {P : Token → Prop} {setting : Setting} {s : State}

section Definitions

variable (P)

/-- The tokens in what is being done. -/
def Control.Worded : Control → Prop
  | .evaluate e => e.Worded (.blamed P)
  | .execute statement => statement.Worded (.blamed P)
  | .complete (.failed failure) => P failure.token
  | _ => True

/-- The tokens in pending work. -/
def Pending.Worded : Pending → Prop
  | .unary operator => Vocabulary.blamed P .sign operator
  | .leftOperand operator right =>
      Vocabulary.blamed P .operator operator ∧ right.Worded (.blamed P)
  | .rightOperand operator _ => Vocabulary.blamed P .operator operator
  | .logical _ right => right.Worded (.blamed P)
  | .choice onTrue onFalse => onTrue.Worded (.blamed P) ∧ onFalse.Worded (.blamed P)
  | .assignment target => P target.name
  | .callee paren arguments => P paren ∧ ∀ e ∈ arguments, e.Worded (.blamed P)
  | .argument _ paren _ after => P paren ∧ ∀ e ∈ after, e.Worded (.blamed P)
  | .property name => P name
  | .setTarget name value => P name ∧ value.Worded (.blamed P)
  | .print keyword => P keyword
  | .branch onTrue onFalse =>
      onTrue.Worded (.blamed P) ∧ ∀ s ∈ onFalse, s.Worded (.blamed P)
  | .loopTest condition body | .loopBody condition body =>
      condition.Worded (.blamed P) ∧ body.Worded (.blamed P)
  | .inherit name superclass methods =>
      P name ∧ P superclass.name ∧ ∀ f ∈ methods, f.Worded (.blamed P)
  | .sequence rest => ∀ s ∈ rest, s.Worded (.blamed P)
  | _ => True

/-- The tokens in what is being done and what is still to be done. -/
structure State.Points (s : State) : Prop where
  control : s.control.Worded P
  pending : ∀ task ∈ s.pending, task.Worded P

/-- All tokens in the trees that a state holds. -/
structure State.Worded (s : State) : Prop where
  points : s.Points P
  functions : s.All fun closure => closure.declaration.Worded (.blamed P)

end Definitions

/-! ### Operators, names, calls and classes -/

section Points

variable (hpending : ∀ task ∈ s.pending, task.Worded P)

include hpending

theorem operate_points {operator : Token} {result : Except Failure.Cause Value}
    (h : (∃ v, result = .ok v) ∨ P operator) : (operate s operator result).Points P := by
  cases result with
  | ok v => exact ⟨trivial, hpending⟩
  | error cause =>
      rcases h with ⟨v, hok⟩ | hoperator
      · exact absurd hok (by simp)
      · exact ⟨hoperator, hpending⟩

theorem Settles.points {t : State} (h : Settles s t)
    (htoken : ∀ failure, t.control = .complete (.failed failure) → P failure.token) :
    t.Points P := by
  cases h with
  | value m v => exact ⟨trivial, hpending⟩
  | failed m failure => exact ⟨htoken failure rfl, hpending⟩

theorem lookup_points {occurrence : Occurrence} (hname : P occurrence.name) :
    (lookup setting s occurrence).Points P := by
  refine (lookup_settles s occurrence).points hpending fun failure hfailed => ?_
  rw [lookup_failure hfailed]
  exact hname

theorem enter_points {closure : Closure} (hclosure : closure.declaration.Worded (.blamed P))
    (arguments : List Value) (answer : Answer) : (enter s closure arguments answer).Points P :=
  ⟨trivial, List.forall_mem_cons.mpr
    ⟨hclosure.of_body, List.forall_mem_cons.mpr ⟨trivial, hpending⟩⟩⟩

theorem Called.points {callee : Value} {paren : Token} {arguments : List Value} {t : State}
    (h : Called setting s paren arguments callee t) (hparen : P paren)
    (hcallee : callee.All fun closure => closure.declaration.Worded (.blamed P)) :
    t.Points P := by
  cases h with
  | refused _ _ => exact ⟨hparen, hpending⟩
  | clock _ | plain _ _ => exact ⟨trivial, hpending⟩
  | function _ => exact enter_points hpending hcallee arguments _
  | initialized _ hfind =>
      refine enter_points ?_ ?_ arguments _
      · exact hpending
      · exact Class.All.find hcallee hfind 0

theorem Finished.points {name : Token} {superclass : Option Class} {methods : List FunctionDecl}
    {t : State} (h : Finished s name superclass methods t) (hname : P name) : t.Points P := by
  cases h with
  | done a _ => exact ⟨trivial, hpending⟩
  | failed => exact ⟨hname, hpending⟩

/-! ### The four kinds of step -/

theorem evaluating_points {task : Pending} {e : Expr} (htask : task.Worded P)
    (he : e.Worded (.blamed P)) : (s.evaluating task e).Points P :=
  ⟨he, List.forall_mem_cons.mpr ⟨htask, hpending⟩⟩

theorem evaluate_points {e : Expr} (he : e.Worded (.blamed P)) :
    (evaluate setting s e).Points P := by
  cases he with
  | literal => exact ⟨trivial, hpending⟩
  | group h => exact ⟨h, hpending⟩
  | unary hsign h => exact evaluating_points hpending hsign h
  | binary hoperator hleft hright => exact evaluating_points hpending ⟨hoperator, hright⟩ hleft
  | logical hoperator hleft hright => exact evaluating_points hpending hright hleft
  | conditional hcondition hTrue hFalse =>
      exact evaluating_points hpending ⟨hTrue, hFalse⟩ hcondition
  | use hname => exact lookup_points hpending hname
  | assign hname hvalue => exact evaluating_points hpending hname hvalue
  | call hcallee hparen harguments =>
      exact evaluating_points hpending ⟨hparen, harguments⟩ hcallee
  | get hobject hname => exact evaluating_points hpending hname hobject
  | set hobject hname hvalue => exact evaluating_points hpending ⟨hname, hvalue⟩ hobject
  | this hkeyword => exact lookup_points hpending hkeyword
  | super hkeyword hname =>
      refine (inheritedMethod_settles s _ _).points hpending fun failure hfailed => ?_
      rcases (inheritedMethod_inherited setting s _ _).failure hfailed with rfl | rfl | rfl
      · exact hkeyword
      · exact hkeyword
      · exact hname

theorem execute_points {statement : Stmt} (hstatement : statement.Worded (.blamed P)) :
    (execute s statement).Points P := by
  cases hstatement with
  | expression h => exact evaluating_points hpending trivial h
  | print hkeyword h => exact evaluating_points hpending hkeyword h
  | @var name initializer hname h =>
      cases initializer with
      | none => exact ⟨trivial, hpending⟩
      | some value => exact evaluating_points hpending trivial (h value rfl)
  | block h =>
      exact ⟨trivial, List.forall_mem_cons.mpr ⟨h, List.forall_mem_cons.mpr ⟨trivial, hpending⟩⟩⟩
  | ifElse hcondition hTrue _ hFalse _ =>
      exact evaluating_points hpending ⟨hTrue, hFalse⟩ hcondition
  | whileLoop hcondition hbody _ =>
      exact evaluating_points hpending ⟨hcondition, hbody⟩ hcondition
  | breakLoop _ => exact ⟨trivial, hpending⟩
  | function _ => exact ⟨trivial, hpending⟩
  | @returnWith keyword value _ h =>
      cases value with
      | none => exact ⟨trivial, hpending⟩
      | some value => exact evaluating_points hpending trivial (h value rfl)
  | @classDecl name superclass methods hname habove hmethods =>
      let defined : State := { s with memory := s.memory.define s.env name.lexeme .nil }
      have hdefined : ∀ task ∈ defined.pending, task.Worded P := hpending
      cases superclass with
      | none => exact (finishClass_finished defined name none methods).points hdefined hname
      | some occurrence =>
          exact evaluating_points hdefined ⟨hname, habove occurrence rfl, hmethods⟩
            (.use (habove occurrence rfl))

theorem resume_points {v : Value} {task : Pending} (htask : task.Worded P)
    (hv : v.All fun closure => closure.declaration.Worded (.blamed P))
    (hfunctions : task.All fun closure => closure.declaration.Worded (.blamed P)) :
    (resume setting s v task).Points P := by
  cases task with
  | unary operator =>
      refine operate_points hpending (Or.imp_left (fun hbang => ?_) htask)
      rw [hbang]
      exact ⟨_, rfl⟩
  | leftOperand operator right => exact evaluating_points hpending htask.1 htask.2
  | rightOperand operator left =>
      refine operate_points hpending (Or.imp_left (fun hequal => ?_) htask)
      rw [hequal]
      exact ⟨_, rfl⟩
  | logical operator right =>
      rcases resume_logical setting s v operator right with hnext | hnext <;> rw [hnext]
      · exact ⟨trivial, hpending⟩
      · exact ⟨htask, hpending⟩
  | choice onTrue onFalse =>
      refine ⟨?_, hpending⟩
      show Expr.Worded _ (if v.isTruthy then onTrue else onFalse)
      split
      · exact htask.1
      · exact htask.2
  | assignment target =>
      refine (assign_settles s target v).points hpending fun failure hfailed => ?_
      rw [assign_failure hfailed]
      exact htask
  | callee paren arguments =>
      obtain ⟨hparen, harguments⟩ := htask
      cases arguments with
      | nil => exact (call_called setting s v paren []).points hpending hparen hv
      | cons first rest =>
          rw [List.forall_mem_cons] at harguments
          exact evaluating_points hpending ⟨hparen, harguments.2⟩ harguments.1
  | argument callee paren before after =>
      obtain ⟨hparen, harguments⟩ := htask
      cases after with
      | nil => exact (call_called setting s callee paren _).points hpending hparen hfunctions.1
      | cons next rest =>
          rw [List.forall_mem_cons] at harguments
          exact evaluating_points hpending ⟨hparen, harguments.2⟩ harguments.1
  | property name =>
      refine (getProperty_settles s v name).points hpending fun failure hfailed => ?_
      rcases (getProperty_got s v name).failure hfailed with rfl | rfl
      · exact htask
      · exact htask
  | setTarget name value =>
      cases v with
      | object address class_ => exact evaluating_points hpending trivial htask.2
      | _ => exact ⟨htask.1, hpending⟩
  | print keyword =>
      rcases resume_print setting s v keyword with ⟨_, hnext⟩ | ⟨_, _, hnext⟩ <;> rw [hnext]
      · exact ⟨trivial, hpending⟩
      · exact ⟨htask, hpending⟩
  | branch onTrue onFalse =>
      rcases resume_branch setting s v onTrue onFalse with
        hnext | ⟨statement, rfl, hnext⟩ | ⟨-, hnext⟩ <;> rw [hnext]
      · exact ⟨htask.1, hpending⟩
      · exact ⟨htask.2 statement rfl, hpending⟩
      · exact ⟨trivial, hpending⟩
  | loopTest condition body =>
      rcases resume_loopTest setting s v condition body with hnext | hnext <;> rw [hnext]
      · exact ⟨htask.2, List.forall_mem_cons.mpr ⟨htask, hpending⟩⟩
      · exact ⟨trivial, hpending⟩
  | inherit name superclass methods =>
      cases v with
      | classValue class_ =>
          exact (finishClass_finished s name (some class_) methods).points hpending htask.1
      | _ => exact ⟨htask.2.1, hpending⟩
  | setValue _ _ | discard | define _ | returning => exact ⟨trivial, hpending⟩
  | sequence _ | loopBody _ _ | leaveBlock _ | leaveCall _ _ =>
      exact ⟨trivial, List.forall_mem_cons.mpr ⟨htask, hpending⟩⟩

theorem unwind_points {c : Completion} {task : Pending} (hc : (Control.complete c).Worded P)
    (htask : task.Worded P) : (unwind s c task).Points P := by
  cases task with
  | sequence rest =>
      rcases unwind_sequence s c rest with ⟨next, others, -, rfl, hnext⟩ | hnext <;> rw [hnext]
      · obtain ⟨hstatement, hothers⟩ := List.forall_mem_cons.mp htask
        exact ⟨hstatement, List.forall_mem_cons.mpr ⟨hothers, hpending⟩⟩
      · exact ⟨hc, hpending⟩
  | loopBody condition body =>
      cases c with
      | normal => exact evaluating_points hpending htask htask.1
      | broken => exact ⟨trivial, hpending⟩
      | _ => exact ⟨hc, hpending⟩
  | leaveCall env answer =>
      cases c with
      | failed failure => exact ⟨hc, hpending⟩
      | _ => exact ⟨trivial, hpending⟩
  | _ => exact ⟨hc, hpending⟩

end Points

theorem step_points (h : s.Worded P) : (step setting s).Points P := by
  obtain ⟨⟨hcontrol, hpending⟩, hfunctions⟩ := h
  obtain ⟨control, pending, env, depth, memory, sink⟩ := s
  cases control with
  | evaluate e => exact evaluate_points hpending hcontrol
  | execute statement => exact execute_points hpending hcontrol
  | value v =>
      cases pending with
      | nil => exact ⟨trivial, hpending⟩
      | cons task below =>
          obtain ⟨htask, hbelow⟩ := List.forall_mem_cons.mp hpending
          exact resume_points (s := ⟨.value v, below, env, depth, memory, sink⟩) hbelow htask
            hfunctions.control (hfunctions.pending task List.mem_cons_self)
  | complete c =>
      cases pending with
      | nil => exact ⟨hcontrol, hpending⟩
      | cons task below =>
          obtain ⟨htask, hbelow⟩ := List.forall_mem_cons.mp hpending
          exact unwind_points (s := ⟨.complete c, below, env, depth, memory, sink⟩) hbelow hcontrol
            htask

/-! ### A whole run -/

/-- **Whatever trees a step goes on with were there before.** -/
theorem step_worded (h : s.Worded P) : (step setting s).Worded P := by
  refine ⟨step_points h, step_all h.functions (fun declaration hcontrol => ?_)
    (fun name methods hcontrol => ?_) fun class_ name occurrence methods below _ hpending => ?_⟩
  · have hstatement := h.points.control
    rw [hcontrol] at hstatement
    cases hstatement with
    | function h => exact h
  · have hstatement := h.points.control
    rw [hcontrol] at hstatement
    cases hstatement with
    | classDecl _ _ hmethods => exact fun f hf _ => hmethods f hf
  · have htask := h.points.pending (.inherit name occurrence methods)
      (by rw [hpending]; exact List.mem_cons_self)
    exact fun _ f hf _ => htask.2.2 f hf

theorem run_worded (h : s.Worded P) (fuel : Nat) : (run setting fuel s).Worded P := by
  induction fuel generalizing s with
  | zero => exact h
  | succ fuel ih =>
      rw [run_succ]
      exact ih (step_worded h)

/-- A failure points at a token of a tree that was there from the beginning. -/
theorem run_failed_token (h : s.Worded P) {fuel : Nat} {failure : Failure}
    (hended : (run setting fuel s).ended? = some (.failed failure)) : P failure.token := by
  have hcontrol : (run setting fuel s).control.Worded P := (run_worded h fuel).points.control
  rw [(ended?_eq_some_iff.mp hended).1] at hcontrol
  exact hcontrol

end Machine

end Lox
