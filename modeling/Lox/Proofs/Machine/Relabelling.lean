/-
Runs with other labels.

All that the machine does with the number of an occurrence is to look up its distance, and
all that it does with a token beside reading its text is to blame it for a failure.  So if
the occurrences with the other numbers have the same distances, the machine takes the same
steps with other labels: to relabel a state and then to take a step is to take the step
first.  The numbers and the lines need not stay different from each other for that.
-/
import Lox.Machine.Run
import Lox.Proofs.Value.Relabelling

namespace Lox.Machine

section

variable (f l : Nat → Nat)

/-- The end of a statement with other labels in what it returns or blames. -/
def Completion.relabel : Completion → Completion
  | .normal => .normal
  | .broken => .broken
  | .returned v => .returned (v.relabel f l)
  | .failed failure => .failed (failure.reline l)

/-- What is being done, with other labels. -/
def Control.relabel : Control → Control
  | .evaluate e => .evaluate (e.relabel f l)
  | .value v => .value (v.relabel f l)
  | .execute s => .execute (s.relabel f l)
  | .complete c => .complete (c.relabel f l)

/-- What a call yields, with other labels. -/
def Answer.relabel : Answer → Answer
  | .returned => .returned
  | .receiver env => .receiver env
  | .fixed v => .fixed (v.relabel f l)

/-- Waiting work with other labels. -/
def Pending.relabel : Pending → Pending
  | .unary operator => .unary (operator.reline l)
  | .leftOperand operator right => .leftOperand (operator.reline l) (right.relabel f l)
  | .rightOperand operator left => .rightOperand (operator.reline l) (left.relabel f l)
  | .logical operator right => .logical (operator.reline l) (right.relabel f l)
  | .choice onTrue onFalse => .choice (onTrue.relabel f l) (onFalse.relabel f l)
  | .assignment target => .assignment (target.relabel f l)
  | .callee paren arguments => .callee (paren.reline l) (arguments.map (Expr.relabel f l))
  | .argument called paren before after =>
      .argument (called.relabel f l) (paren.reline l) (before.map (Value.relabel f l))
        (after.map (Expr.relabel f l))
  | .property name => .property (name.reline l)
  | .setTarget name value => .setTarget (name.reline l) (value.relabel f l)
  | .setValue address name => .setValue address (name.reline l)
  | .discard => .discard
  | .print keyword => .print (keyword.reline l)
  | .define name => .define (name.reline l)
  | .branch onTrue onFalse => .branch (onTrue.relabel f l) (onFalse.map (Stmt.relabel f l))
  | .loopTest condition body => .loopTest (condition.relabel f l) (body.relabel f l)
  | .returning => .returning
  | .inherit name superclass methods =>
      .inherit (name.reline l) (superclass.relabel f l) (methods.map (FunctionDecl.relabel f l))
  | .sequence rest => .sequence (rest.map (Stmt.relabel f l))
  | .loopBody condition body => .loopBody (condition.relabel f l) (body.relabel f l)
  | .leaveBlock env => .leaveBlock env
  | .leaveCall env answer => .leaveCall env (answer.relabel f l)

/-- A state with other labels. -/
def State.relabel (s : State) : State :=
  { s with
    control := s.control.relabel f l
    pending := s.pending.map (Pending.relabel f l)
    memory := s.memory.relabel f l }

end

variable {f l : Nat → Nat}

/-! ### Going on -/

section

variable (s : State)

@[simp] theorem State.relabel_memory : (s.relabel f l).memory = s.memory.relabel f l :=
  rfl

@[simp] theorem State.relabel_env : (s.relabel f l).env = s.env :=
  rfl

@[simp] theorem State.relabel_depth : (s.relabel f l).depth = s.depth :=
  rfl

@[simp] theorem State.relabel_sink : (s.relabel f l).sink = s.sink :=
  rfl

theorem State.evaluating_relabel (task : Pending) (e : Expr) :
    (s.relabel f l).evaluating (task.relabel f l) (e.relabel f l)
      = (s.evaluating task e).relabel f l :=
  rfl

@[simp] theorem State.giving_relabel (v : Value) :
    (s.relabel f l).giving (v.relabel f l) = (s.giving v).relabel f l :=
  rfl

@[simp] theorem State.failing_relabel (token : Token) (cause : Failure.Cause) :
    (s.relabel f l).failing (token.reline l) cause = (s.failing token cause).relabel f l :=
  rfl

@[simp] theorem State.completing_relabel (c : Completion) :
    (s.relabel f l).completing (c.relabel f l) = (s.completing c).relabel f l :=
  rfl

@[simp] theorem State.ended?_relabel :
    (s.relabel f l).ended? = s.ended?.map (Completion.relabel f l) := by
  obtain ⟨control, pending, env, depth, memory, sink⟩ := s
  cases control <;> cases pending <;> rfl

end

/-! ### Names -/

section

variable {locals locals' : Scope.Locals} {clock : Nat → Float}
  (hlocals : ∀ id, locals'[f id]? = locals[id]?) (s : State)

include hlocals

theorem lookup_relabel (occurrence : Occurrence) :
    lookup ⟨locals', clock⟩ (s.relabel f l) (occurrence.relabel f l)
      = (lookup ⟨locals, clock⟩ s occurrence).relabel f l := by
  unfold lookup
  simp only [Occurrence.relabel_id, Occurrence.relabel_name, Token.reline_lexeme, hlocals,
    State.relabel_memory,
    State.relabel_env, Memory.readAt?_relabel, Memory.read?_relabel]
  cases locals[occurrence.id]? with
  | none =>
      dsimp only
      cases s.memory.read? Memory.globals occurrence.name.lexeme <;> rfl
  | some distance =>
      dsimp only
      cases s.memory.readAt? s.env distance occurrence.name.lexeme <;> rfl

theorem locate_relabel (occurrence : Occurrence) :
    locate ⟨locals', clock⟩ (s.relabel f l) (occurrence.relabel f l)
      = locate ⟨locals, clock⟩ s occurrence := by
  unfold locate
  simp only [Occurrence.relabel_id, Occurrence.relabel_name, Token.reline_lexeme, hlocals,
    State.relabel_memory,
    State.relabel_env, Memory.holderAt?_relabel, Memory.holder?_relabel]

theorem assign_relabel (target : Occurrence) (v : Value) :
    assign ⟨locals', clock⟩ (s.relabel f l) (target.relabel f l) (v.relabel f l)
      = (assign ⟨locals, clock⟩ s target v).relabel f l := by
  unfold assign
  rw [locate_relabel hlocals]
  cases locate ⟨locals, clock⟩ s target with
  | none => rfl
  | some a =>
      dsimp only
      rw [Occurrence.relabel_name, Token.reline_lexeme, State.relabel_memory,
        Memory.bindAt_relabel]
      rfl

theorem inheritedMethod_relabel (keyword : Occurrence) (method : Token) :
    inheritedMethod ⟨locals', clock⟩ (s.relabel f l) (keyword.relabel f l) (method.reline l)
      = (inheritedMethod ⟨locals, clock⟩ s keyword method).relabel f l := by
  unfold inheritedMethod
  simp only [Occurrence.relabel_id, hlocals]
  cases locals[keyword.id]? with
  | none => rfl
  | some distance =>
      simp only [State.relabel_memory, State.relabel_env, Memory.readAt?_relabel]
      rcases s.memory.readAt? s.env distance "super" with _ | superclass
      · rfl
      rcases s.memory.readAt? s.env (distance - 1) "this" with _ | receiver
      · cases superclass <;> rfl
      cases superclass with
      | classValue superclass =>
          cases receiver with
          | object address class_ =>
              simp only [Option.map_some, Value.relabel, Class.find?_relabel, Token.reline_lexeme]
              cases superclass.find? method.lexeme with
              | none => rfl
              | some closure =>
                  have hmethod := Memory.newMethod_relabel (f := f) (l := l) s.memory closure
                    (.object address class_)
                  rw [Value.relabel] at hmethod
                  simp only [Option.map_some, hmethod]
                  rfl
          | _ => rfl
      | _ => rfl

end

/-! ### Properties -/

section

variable (s : State)

theorem getProperty_relabel (v : Value) (name : Token) :
    getProperty (s.relabel f l) (v.relabel f l) (name.reline l)
      = (getProperty s v name).relabel f l := by
  cases v with
  | object address class_ =>
      simp only [Value.relabel, getProperty, State.relabel_memory, Memory.field?_relabel,
        Class.find?_relabel, Token.reline_lexeme]
      cases s.memory.field? address name.lexeme with
      | some field => rfl
      | none =>
          cases class_.find? name.lexeme with
          | none => rfl
          | some closure =>
              have hmethod := Memory.newMethod_relabel (f := f) (l := l) s.memory closure
                (.object address class_)
              rw [Value.relabel] at hmethod
              simp only [Option.map_none, Option.map_some, hmethod]
              rfl
  | _ => rfl

/-! ### Calls -/

theorem arity?_relabel {ε : Type} (v : Value ε) : arity? (v.relabel f l) = arity? v := by
  cases v with
  | function _ closure =>
      simp only [Value.relabel, arity?, Closure.relabel_declaration, FunctionDecl.relabel_params,
        List.length_map]
  | classValue class_ => simp only [Value.relabel, arity?, Class.arity_relabel]
  | _ => rfl

theorem argumentFrame_relabel (params : List Token) (arguments : List Value) :
    argumentFrame (params.map (Token.reline l)) (arguments.map (Value.relabel f l))
      = (argumentFrame params arguments).mapValues (Value.relabel f l) := by
  have hfold : ∀ (row : List (Token × Value)) (bs : Bindings Value),
      (row.map (Prod.map (Token.reline l) (Value.relabel f l))).foldl
          (fun frame entry => frame.insert entry.1.lexeme entry.2)
          (bs.mapValues (Value.relabel f l))
        = (row.foldl (fun frame entry => frame.insert entry.1.lexeme entry.2) bs).mapValues
            (Value.relabel f l) := by
    intro row
    induction row with
    | nil => exact fun _ => rfl
    | cons entry rest ih =>
        intro bs
        rw [List.map_cons, List.foldl_cons, List.foldl_cons, ← ih]
        dsimp only [Prod.map, Token.reline_lexeme]
        rw [Bindings.insert_mapValues]
  unfold argumentFrame
  rw [List.zip_map]
  exact hfold (params.zip arguments) []

theorem enter_relabel (closure : Closure) (arguments : List Value) (answer : Answer) :
    enter (s.relabel f l) (closure.relabel f l) (arguments.map (Value.relabel f l))
        (answer.relabel f l)
      = (enter s closure arguments answer).relabel f l := by
  unfold enter
  simp only [Closure.relabel_declaration, FunctionDecl.relabel_params,
    FunctionDecl.relabel_body, argumentFrame_relabel, State.relabel_memory,
    Memory.newFrame_relabel]
  rfl

theorem construct_relabel (class_ : Class) (arguments : List Value) :
    construct (s.relabel f l) (class_.relabel f l) (arguments.map (Value.relabel f l))
      = (construct s class_ arguments).relabel f l := by
  unfold construct
  simp only [State.relabel_memory, Memory.newObject_relabel, Class.find?_relabel]
  cases class_.find? initializerName with
  | none => rfl
  | some initializer =>
      obtain ⟨address, memory⟩ := s.memory.newObject
      have hbound := Memory.bindMethod_relabel (f := f) (l := l) memory initializer
        (.object address class_)
      rw [Value.relabel] at hbound
      simp only [Option.map_some, hbound]
      obtain ⟨bound, memory⟩ := memory.bindMethod initializer (.object address class_)
      exact enter_relabel { s with memory := memory } bound arguments
        (.fixed (.object address class_))

theorem call_relabel {locals locals' : Scope.Locals} {clock : Nat → Float} (callee : Value)
    (paren : Token) (arguments : List Value) :
    call ⟨locals', clock⟩ (s.relabel f l) (callee.relabel f l) (paren.reline l)
        (arguments.map (Value.relabel f l))
      = (call ⟨locals, clock⟩ s callee paren arguments).relabel f l := by
  unfold call
  rw [arity?_relabel]
  cases arity? callee with
  | none => rfl
  | some arity =>
      simp only [List.length_map]
      by_cases harity : arity ≠ arguments.length
      · rw [if_pos harity, if_pos harity]
        rfl
      rw [if_neg harity, if_neg harity]
      by_cases hdepth : maxDepth ≤ s.depth
      · rw [if_pos (show maxDepth ≤ (s.relabel f l).depth from hdepth), if_pos hdepth]
        rfl
      rw [if_neg (show ¬ maxDepth ≤ (s.relabel f l).depth from hdepth), if_neg hdepth]
      cases callee with
      | function identity closure =>
          obtain ⟨declaration, env, isInitializer⟩ := closure
          cases isInitializer with
          | true => exact enter_relabel s ⟨declaration, env, true⟩ arguments (.receiver env)
          | false => exact enter_relabel s ⟨declaration, env, false⟩ arguments .returned
      | classValue class_ => exact construct_relabel s class_ arguments
      | _ => rfl

/-! ### Classes -/

theorem methodTable_relabel {ε : Type} (env : ε) (methods : List FunctionDecl) :
    methodTable env (methods.map (FunctionDecl.relabel f l))
      = (methodTable env methods).mapValues (Closure.relabel f l) := by
  have hfold : ∀ (row : List FunctionDecl) (table : Bindings (Closure ε)),
      (row.map (FunctionDecl.relabel f l)).foldl
          (fun table method =>
            table.insert method.name.lexeme
              ⟨method, env, method.name.lexeme = initializerName⟩)
          (table.mapValues (Closure.relabel f l))
        = (row.foldl
            (fun table method =>
              table.insert method.name.lexeme
                ⟨method, env, method.name.lexeme = initializerName⟩) table).mapValues
            (Closure.relabel f l) := by
    intro row
    induction row with
    | nil => exact fun _ => rfl
    | cons method rest ih =>
        intro table
        rw [List.map_cons, List.foldl_cons, List.foldl_cons, ← ih, ← Bindings.insert_mapValues,
          FunctionDecl.relabel_name]
        rfl
  exact hfold methods []

theorem classEnv_relabel (superclass : Option Class) :
    classEnv (s.relabel f l) (superclass.map (Class.relabel f l))
      = ((classEnv s superclass).1, (classEnv s superclass).2.relabel f l) := by
  cases superclass with
  | none => rfl
  | some class_ =>
      have hframe : (s.memory.relabel f l).newFrame [("super", .classValue (class_.relabel f l))]
          = ((s.memory.newFrame [("super", .classValue class_)]).1,
              (s.memory.newFrame [("super", .classValue class_)]).2.relabel f l) :=
        Memory.newFrame_relabel s.memory [("super", .classValue class_)]
      unfold classEnv
      simp only [Option.map_some, State.relabel_memory, hframe]
      rfl

theorem finishClass_relabel (name : Token) (superclass : Option Class)
    (methods : List FunctionDecl) :
    finishClass (s.relabel f l) (name.reline l) (superclass.map (Class.relabel f l))
        (methods.map (FunctionDecl.relabel f l))
      = (finishClass s name superclass methods).relabel f l := by
  unfold finishClass
  rw [classEnv_relabel]
  obtain ⟨env, s⟩ := classEnv s superclass
  have hinherited : ((superclass.map (Class.relabel f l)).map Class.layers).getD []
      = ((superclass.map Class.layers).getD []).map (ClassLayer.relabel f l) := by
    cases superclass <;> rfl
  simp only [methodTable_relabel, hinherited, Token.reline_lexeme, State.relabel_memory,
    State.relabel_env,
    Memory.newIdentity_relabel, Memory.holder?_relabel]
  cases s.memory.newIdentity.2.holder? s.env name.lexeme with
  | none => rfl
  | some a =>
      have hbind := Memory.bindAt_relabel (f := f) (l := l) s.memory.newIdentity.2 a name.lexeme
        (.classValue ⟨⟨s.memory.newIdentity.1, name.lexeme, methodTable env methods⟩,
          (superclass.map Class.layers).getD []⟩)
      simp only [Value.relabel, Class.relabel, ClassLayer.relabel] at hbind
      dsimp only
      rw [hbind]
      rfl

end

/-! ### The four kinds of step -/

section

variable {locals locals' : Scope.Locals} {clock : Nat → Float}
  (hlocals : ∀ id, locals'[f id]? = locals[id]?) (s : State)

theorem execute_relabel (statement : Stmt) :
    execute (s.relabel f l) (statement.relabel f l) = (execute s statement).relabel f l := by
  cases statement with
  | var name initializer =>
      cases initializer with
      | none =>
          have hdefine : (s.memory.relabel f l).define s.env name.lexeme .nil
              = (s.memory.define s.env name.lexeme .nil).relabel f l :=
            Memory.define_relabel s.memory s.env name.lexeme .nil
          simp only [Stmt.relabel, Option.map_none, execute, State.relabel_memory,
            State.relabel_env, Token.reline_lexeme, hdefine]
          rfl
      | some value => rfl
  | block body =>
      have hframe : (s.memory.relabel f l).newFrame []
          = ((s.memory.newFrame []).1, (s.memory.newFrame []).2.relabel f l) :=
        Memory.newFrame_relabel s.memory []
      simp only [Stmt.relabel, Stmt.relabelAll_eq_map, execute, State.relabel_memory, hframe]
      rfl
  | ifElse condition onTrue onFalse => cases onFalse <;> rfl
  | returnWith keyword value => cases value <;> rfl
  | function declaration =>
      have hfunction : (s.memory.relabel f l).newFunction ⟨declaration.relabel f l, s.env, false⟩
          = ((s.memory.newFunction ⟨declaration, s.env, false⟩).1.relabel f l,
              (s.memory.newFunction ⟨declaration, s.env, false⟩).2.relabel f l) :=
        Memory.newFunction_relabel s.memory ⟨declaration, s.env, false⟩
      simp only [Stmt.relabel, execute, State.relabel_memory, State.relabel_env, hfunction,
        FunctionDecl.relabel_name, Token.reline_lexeme, Memory.define_relabel]
      rfl
  | classDecl name superclass methods =>
      have hdefine : (s.memory.relabel f l).define s.env name.lexeme .nil
          = (s.memory.define s.env name.lexeme .nil).relabel f l :=
        Memory.define_relabel s.memory s.env name.lexeme .nil
      simp only [Stmt.relabel, FunctionDecl.relabelAll_eq_map, execute, State.relabel_memory,
        State.relabel_env, Token.reline_lexeme, hdefine]
      cases superclass with
      | none => exact finishClass_relabel { s with memory := _ } name none methods
      | some occurrence => rfl
  | _ => rfl

theorem operate_relabel (operator : Token) (result : Except Failure.Cause Value) :
    operate (s.relabel f l) (operator.reline l) (result.map (Value.relabel f l))
      = (operate s operator result).relabel f l := by
  cases result <;> rfl

theorem answer_relabel (memory : Memory) (c : Completion) (answer : Answer) :
    (answer.relabel f l).value (memory.relabel f l) (c.relabel f l)
      = (answer.value memory c).relabel f l := by
  cases answer with
  | returned => cases c <;> rfl
  | receiver env =>
      simp only [Answer.relabel, Answer.value, Memory.readAt?_relabel]
      cases memory.readAt? env 0 "this" <;> rfl
  | fixed v => rfl

theorem unwind_relabel (c : Completion) (task : Pending) :
    unwind (s.relabel f l) (c.relabel f l) (task.relabel f l) = (unwind s c task).relabel f l := by
  cases task with
  | sequence rest => cases c <;> cases rest <;> rfl
  | loopBody condition body => cases c <;> rfl
  | leaveCall env answer =>
      have hanswer := answer_relabel (f := f) (l := l) s.memory c answer
      cases c with
      | failed failure => rfl
      | _ =>
          simp only [Pending.relabel, unwind, State.relabel_memory, hanswer]
          rfl
  | _ => rfl

include hlocals

theorem evaluate_relabel (e : Expr) :
    evaluate ⟨locals', clock⟩ (s.relabel f l) (e.relabel f l)
      = (evaluate ⟨locals, clock⟩ s e).relabel f l := by
  cases e with
  | literal literal => cases literal <;> rfl
  | use occurrence | this occurrence => exact lookup_relabel hlocals s occurrence
  | call callee paren arguments =>
      simp only [Expr.relabel, Expr.relabelAll_eq_map, evaluate]
      rfl
  | super keyword method => exact inheritedMethod_relabel hlocals s keyword method
  | _ => rfl

theorem resume_relabel (v : Value) (task : Pending) :
    resume ⟨locals', clock⟩ (s.relabel f l) (v.relabel f l) (task.relabel f l)
      = (resume ⟨locals, clock⟩ s v task).relabel f l := by
  cases task with
  | unary operator =>
      simp only [Pending.relabel, resume, Token.reline_kind, Value.unary_relabel, operate_relabel]
  | rightOperand operator left =>
      simp only [Pending.relabel, resume, Token.reline_kind, Value.binary_relabel, operate_relabel]
  | logical operator right =>
      simp only [Pending.relabel, resume, Token.reline_kind, Value.isTruthy_relabel]
      split <;> rfl
  | choice onTrue onFalse =>
      simp only [Pending.relabel, resume, Value.isTruthy_relabel]
      split <;> rfl
  | assignment target => exact assign_relabel hlocals s target v
  | callee paren arguments =>
      cases arguments with
      | nil => exact call_relabel s v paren []
      | cons first rest => rfl
  | argument callee paren before after =>
      cases after with
      | nil =>
          have hcall : call ⟨locals', clock⟩ (s.relabel f l) (callee.relabel f l) (paren.reline l)
              ((before ++ [v]).map (Value.relabel f l))
              = (call ⟨locals, clock⟩ s callee paren (before ++ [v])).relabel f l :=
            call_relabel s callee paren (before ++ [v])
          rw [List.map_append] at hcall
          exact hcall
      | cons next rest =>
          have hmap : (before ++ [v]).map (Value.relabel f l)
              = before.map (Value.relabel f l) ++ [v.relabel f l] :=
            List.map_append
          simp only [Pending.relabel, List.map_cons, resume]
          rw [← State.evaluating_relabel, Pending.relabel, hmap]
  | property name => exact getProperty_relabel s v name
  | setTarget name value => cases v <;> rfl
  | setValue address name =>
      simp only [Pending.relabel, resume, State.relabel_memory, Token.reline_lexeme,
        Memory.setField_relabel]
      rfl
  | print keyword =>
      simp only [Pending.relabel, resume, State.relabel_sink, Value.display_relabel]
      split <;> rfl
  | define name =>
      simp only [Pending.relabel, resume, State.relabel_memory, State.relabel_env,
        Token.reline_lexeme, Memory.define_relabel]
      rfl
  | branch onTrue onFalse =>
      simp only [Pending.relabel, resume, Value.isTruthy_relabel]
      split
      · rfl
      · cases onFalse <;> rfl
  | loopTest condition body =>
      simp only [Pending.relabel, resume, Value.isTruthy_relabel]
      split <;> rfl
  | inherit name superclass methods =>
      cases v with
      | classValue class_ => exact finishClass_relabel s name (some class_) methods
      | _ => rfl
  | _ => rfl

/-- **A step does not depend on the labels, only on the distances.** -/
theorem step_relabel :
    step ⟨locals', clock⟩ (s.relabel f l) = (step ⟨locals, clock⟩ s).relabel f l := by
  obtain ⟨control, pending, env, depth, memory, sink⟩ := s
  cases control with
  | evaluate e =>
      exact evaluate_relabel hlocals ⟨.evaluate e, pending, env, depth, memory, sink⟩ e
  | execute statement =>
      exact execute_relabel ⟨.execute statement, pending, env, depth, memory, sink⟩ statement
  | value v =>
      cases pending with
      | nil => rfl
      | cons task rest =>
          exact resume_relabel hlocals ⟨.value v, rest, env, depth, memory, sink⟩ v task
  | complete c =>
      cases pending with
      | nil => rfl
      | cons task rest =>
          exact unwind_relabel ⟨.complete c, rest, env, depth, memory, sink⟩ c task

/-- Nor does a run. -/
theorem run_relabel (fuel : Nat) (s : State) :
    run ⟨locals', clock⟩ fuel (s.relabel f l) = (run ⟨locals, clock⟩ fuel s).relabel f l := by
  induction fuel generalizing s with
  | zero => rfl
  | succ fuel ih => rw [run_succ, run_succ, step_relabel hlocals, ih]

end

end Lox.Machine
