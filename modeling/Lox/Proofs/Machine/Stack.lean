/-
What lies under a stack.

Nothing that the machine does looks further down than at the topmost pending work, so whatever
is put under a stack stays there untouched, and the steps are the same above it (`step_under`).
-/
import Lox.Machine.Run

namespace Lox.Machine

variable {setting : Setting}

/-! ### Stacks on top of others -/

/-- The same state with more work under its stack. -/
def State.under (s : State) (base : List Pending) : State :=
  { s with pending := s.pending ++ base }

section Under

variable (s : State) (base : List Pending)

theorem lookup_under (occurrence : Occurrence) :
    lookup setting (s.under base) occurrence = (lookup setting s occurrence).under base := by
  unfold lookup
  dsimp only [State.under]
  split <;> rfl

theorem assign_under (target : Occurrence) (v : Value) :
    assign setting (s.under base) target v = (assign setting s target v).under base := by
  have hlocate : locate setting (s.under base) target = locate setting s target := rfl
  unfold assign
  rw [hlocate]
  dsimp only [State.under]
  split <;> rfl

theorem inheritedMethod_under (keyword : Occurrence) (method : Token) :
    inheritedMethod setting (s.under base) keyword method
      = (inheritedMethod setting s keyword method).under base := by
  unfold inheritedMethod
  dsimp only [State.under]
  split
  · rfl
  · split
    · split <;> rfl
    · rfl

theorem getProperty_under (v : Value) (name : Token) :
    getProperty (s.under base) v name = (getProperty s v name).under base := by
  unfold getProperty
  dsimp only [State.under]
  split
  · split
    · rfl
    · split <;> rfl
  · rfl

theorem operate_under (operator : Token) (result : Except Failure.Cause Value) :
    operate (s.under base) operator result = (operate s operator result).under base := by
  unfold operate
  split <;> rfl

theorem construct_under (class_ : Class) (arguments : List Value) :
    construct (s.under base) class_ arguments = (construct s class_ arguments).under base := by
  unfold construct
  dsimp only [State.under]
  split <;> rfl

theorem call_under (callee : Value) (paren : Token) (arguments : List Value) :
    call setting (s.under base) callee paren arguments
      = (call setting s callee paren arguments).under base := by
  unfold call
  split
  · rfl
  · split
    · rfl
    · by_cases hdepth : maxDepth ≤ s.depth
      · rw [if_pos (show maxDepth ≤ (s.under base).depth from hdepth), if_pos hdepth]
        rfl
      rw [if_neg (show ¬maxDepth ≤ (s.under base).depth from hdepth), if_neg hdepth]
      split
      · rfl
      · exact construct_under s base _ arguments
      · rfl

theorem finishClass_under (name : Token) (superclass : Option Class)
    (methods : List FunctionDecl) :
    finishClass (s.under base) name superclass methods
      = (finishClass s name superclass methods).under base := by
  cases superclass <;>
  · unfold finishClass classEnv
    dsimp only [State.under]
    split <;> rfl

theorem evaluate_under (e : Expr) :
    evaluate setting (s.under base) e = (evaluate setting s e).under base := by
  cases e with
  | use occurrence => exact lookup_under s base occurrence
  | this receiver => exact lookup_under s base receiver
  | super keyword method => exact inheritedMethod_under s base keyword method
  | _ => rfl

theorem execute_under (statement : Stmt) :
    execute (s.under base) statement = (execute s statement).under base := by
  cases statement with
  | var name initializer => cases initializer <;> rfl
  | returnWith keyword value => cases value <;> rfl
  | classDecl name superclass methods =>
      cases superclass with
      | none =>
          exact finishClass_under { s with memory := s.memory.define s.env name.lexeme .nil } base
            name none methods
      | some occurrence => rfl
  | _ => rfl

theorem resume_under (v : Value) (task : Pending) :
    resume setting (s.under base) v task = (resume setting s v task).under base := by
  cases task with
  | unary operator => exact operate_under s base operator _
  | rightOperand operator left => exact operate_under s base operator _
  | logical operator right =>
      unfold resume
      dsimp only
      split <;> rfl
  | assignment target => exact assign_under s base target v
  | callee paren arguments =>
      cases arguments with
      | nil => exact call_under s base v paren []
      | cons first rest => rfl
  | argument callee paren before after =>
      cases after with
      | nil => exact call_under s base callee paren _
      | cons next rest => rfl
  | property name => exact getProperty_under s base v name
  | setTarget name value =>
      cases v <;> rfl
  | print keyword =>
      have hsink : (s.under base).sink = s.sink := rfl
      unfold resume
      dsimp only
      rw [hsink]
      split <;> rfl
  | branch onTrue onFalse =>
      unfold resume
      dsimp only
      split
      · rfl
      · cases onFalse <;> rfl
  | loopTest condition body =>
      unfold resume
      dsimp only
      split <;> rfl
  | inherit name superclass methods =>
      cases v with
      | classValue class_ => exact finishClass_under s base name (some class_) methods
      | _ => rfl
  | _ => rfl

theorem unwind_under (c : Completion) (task : Pending) :
    unwind (s.under base) c task = (unwind s c task).under base := by
  cases task with
  | sequence rest => cases c <;> cases rest <;> rfl
  | loopBody condition body => cases c <;> rfl
  | leaveCall env answer => cases c <;> rfl
  | _ => rfl

end Under

/-- There is something to do without what lies under the stack. -/
def State.Occupied (s : State) : Prop :=
  s.pending ≠ [] ∨ (∃ e, s.control = .evaluate e) ∨ ∃ statement, s.control = .execute statement

/-- What lies under the stack makes no difference to a step above it. -/
theorem step_under {s : State} (h : s.Occupied) (base : List Pending) :
    step setting (s.under base) = (step setting s).under base := by
  obtain ⟨control, pending, env, depth, memory, sink⟩ := s
  cases control with
  | evaluate e => exact evaluate_under _ base e
  | execute statement => exact execute_under _ base statement
  | value v =>
      cases pending with
      | nil => rcases h with h | ⟨_, h⟩ | ⟨_, h⟩ <;> simp at h
      | cons task below =>
          exact resume_under ⟨.value v, below, env, depth, memory, sink⟩ base v task
  | complete c =>
      cases pending with
      | nil => rcases h with h | ⟨_, h⟩ | ⟨_, h⟩ <;> simp at h
      | cons task below =>
          exact unwind_under ⟨.complete c, below, env, depth, memory, sink⟩ base c task

end Lox.Machine
