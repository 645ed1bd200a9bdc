/-
One step of the machine.

`step` looks at the control.  An expression or a statement is taken apart: its first
part becomes the control and the rest becomes pending work (`evaluate`, `execute`).  A
value goes to the topmost pending work (`resume`), and the end of a statement to the
topmost work that waits for one, dropping whatever waits for a value on its way
(`unwind`).
-/
import Lox.Machine.State
import Lox.Value.Operator

namespace Lox.Machine

variable (setting : Setting)

/-! ### Names -/

/-- The value of a variable or of `this`. -/
def lookup (s : State) (occurrence : Occurrence) : State :=
  let name := occurrence.name.lexeme
  let found :=
    match setting.locals[occurrence.id]? with
    | some distance => s.memory.readAt? s.env distance name
    | none => s.memory.read? Memory.globals name
  match found with
  | some v => s.giving v
  | none => s.failing occurrence.name (.undefinedVariable name)

/-- The frame in which the variable of an occurrence is. -/
def locate (s : State) (occurrence : Occurrence) : Option Address :=
  let name := occurrence.name.lexeme
  match setting.locals[occurrence.id]? with
  | some distance => s.memory.holderAt? s.env distance name
  | none => s.memory.holder? Memory.globals name

/-- Changes a variable; the value of the assignment is the value assigned. -/
def assign (s : State) (target : Occurrence) (v : Value) : State :=
  let name := target.name.lexeme
  match locate setting s target with
  | some a => { s with memory := s.memory.bindAt a name v, control := .value v }
  | none => s.failing target.name (.undefinedVariable name)

/-- A method of the superclass, bound to the instance at hand.  The frame that binds
`super` lies one further out than the one that binds `this`. -/
def inheritedMethod (s : State) (keyword : Occurrence) (method : Token) : State :=
  match setting.locals[keyword.id]? with
  | none => s.failing keyword.name .superOutsideClass
  | some distance =>
      match s.memory.readAt? s.env distance "super",
          s.memory.readAt? s.env (distance - 1) "this" with
      | some (.classValue superclass), some (.object address class_) =>
          match superclass.find? method.lexeme with
          | some closure =>
              let (v, memory) := s.memory.newMethod closure (.object address class_)
              { s with memory := memory, control := .value v }
          | none => s.failing method (.undefinedProperty method.lexeme)
      | _, _ => s.failing keyword.name .superNotBound

/-- A field of an instance, or else a method of its class, bound to it. -/
def getProperty (s : State) (v : Value) (name : Token) : State :=
  match v with
  | .object address class_ =>
      match s.memory.field? address name.lexeme with
      | some field => s.giving field
      | none =>
          match class_.find? name.lexeme with
          | some closure =>
              let (method, memory) := s.memory.newMethod closure (.object address class_)
              { s with memory := memory, control := .value method }
          | none => s.failing name (.undefinedProperty name.lexeme)
  | _ => s.failing name .notAnInstanceToRead

/-! ### Calls -/

/-- How many arguments a value is called with, if it can be called. -/
def arity? {ε : Type} : Value ε → Option Nat
  | .clock => some 0
  | .function _ closure => some closure.declaration.params.length
  | .classValue class_ => some class_.arity
  | _ => none

/-- The frame of a call: each parameter with its argument. -/
def argumentFrame (params : List Token) (arguments : List Value) : Bindings Value :=
  (params.zip arguments).foldl (fun frame entry => frame.insert entry.1.lexeme entry.2) []

/-- Enters the body of a function; `answer` says what the call yields. -/
def enter (s : State) (closure : Closure) (arguments : List Value) (answer : Answer) : State :=
  let (a, memory) :=
    s.memory.newFrame (argumentFrame closure.declaration.params arguments)
  { s with
    control := .complete .normal
    pending := .sequence closure.declaration.body :: .leaveCall s.env answer :: s.pending
    env := a :: closure.env
    depth := s.depth + 1
    memory := memory }

/-- Makes an instance and runs its initializer, if the class has one. -/
def construct (s : State) (class_ : Class) (arguments : List Value) : State :=
  let (address, memory) := s.memory.newObject
  let object := Value.object address class_
  match class_.find? initializerName with
  | some initializer =>
      let (bound, memory) := memory.bindMethod initializer object
      enter { s with memory := memory } bound arguments (.fixed object)
  | none => { s with memory := memory, control := .value object }

/-- Calls a value: only what can be called, only with as many arguments as it takes,
and only while there are not too many calls already. -/
def call (s : State) (callee : Value) (paren : Token) (arguments : List Value) : State :=
  match arity? callee with
  | none => s.failing paren .notCallable
  | some arity =>
      if arity ≠ arguments.length then
        s.failing paren (.wrongArgumentCount arity arguments.length)
      else if maxDepth ≤ s.depth then s.failing paren .stackOverflow
      else
        match callee with
        | .function _ closure =>
            enter s closure arguments
              (if closure.isInitializer then .receiver closure.env else .returned)
        | .classValue class_ => construct s class_ arguments
        | _ =>
            { s with
              control := .value (.number (setting.clock s.memory.readings))
              memory := { s.memory with readings := s.memory.readings + 1 } }

/-! ### Classes -/

/-- The methods of a class by name; of two with one name the later counts. -/
def methodTable {ε : Type} (env : ε) (methods : List FunctionDecl) : Bindings (Closure ε) :=
  methods.foldl
    (fun table method =>
      table.insert method.name.lexeme
        ⟨method, env, method.name.lexeme = initializerName⟩) []

/-- The frames in which the methods of a class are declared: those of the class, with
one more in between that binds `super` if there is a superclass. -/
def classEnv (s : State) (superclass : Option Class) : Env × State :=
  match superclass with
  | some class_ =>
      let (a, memory) := s.memory.newFrame [("super", .classValue class_)]
      (a :: s.env, { s with memory := memory })
  | none => (s.env, s)

/-- Makes a class and gives it to the variable that its declaration has defined. -/
def finishClass (s : State) (name : Token) (superclass : Option Class)
    (methods : List FunctionDecl) : State :=
  let (env, s) := classEnv s superclass
  let (identity, memory) := s.memory.newIdentity
  let own : ClassLayer := ⟨identity, name.lexeme, methodTable env methods⟩
  let inherited := (superclass.map Class.layers).getD []
  let s := { s with memory := memory }
  match s.memory.holder? s.env name.lexeme with
  | some a =>
      { s with
        memory := s.memory.bindAt a name.lexeme (.classValue ⟨own, inherited⟩)
        control := .complete .normal }
  | none => s.failing name (.undefinedVariable name.lexeme)

/-! ### The four kinds of step -/

/-- The first step of an expression. -/
def evaluate (s : State) : Expr → State
  | .literal literal => s.giving (.ofLiteral literal)
  | .group inner => { s with control := .evaluate inner }
  | .unary operator operand => s.evaluating (.unary operator) operand
  | .binary operator left right => s.evaluating (.leftOperand operator right) left
  | .logical operator left right => s.evaluating (.logical operator right) left
  | .conditional condition onTrue onFalse => s.evaluating (.choice onTrue onFalse) condition
  | .use occurrence => lookup setting s occurrence
  | .assign target value => s.evaluating (.assignment target) value
  | .call callee paren arguments => s.evaluating (.callee paren arguments) callee
  | .get object property => s.evaluating (.property property) object
  | .set object property value => s.evaluating (.setTarget property value) object
  | .this receiver => lookup setting s receiver
  | .super keyword method => inheritedMethod setting s keyword method

/-- The first step of a statement. -/
def execute (s : State) : Stmt → State
  | .expression value => s.evaluating .discard value
  | .print keyword value => s.evaluating (.print keyword) value
  | .var name none =>
      { s with
        memory := s.memory.define s.env name.lexeme .nil
        control := .complete .normal }
  | .var name (some value) => s.evaluating (.define name) value
  | .block body =>
      let (a, memory) := s.memory.newFrame []
      { s with
        control := .complete .normal
        pending := .sequence body :: .leaveBlock s.env :: s.pending
        env := a :: s.env
        memory := memory }
  | .ifElse condition onTrue onFalse => s.evaluating (.branch onTrue onFalse) condition
  | .whileLoop condition body => s.evaluating (.loopTest condition body) condition
  | .breakLoop _ => s.completing .broken
  | .returnWith _ none => s.completing (.returned .nil)
  | .returnWith _ (some value) => s.evaluating .returning value
  | .function declaration =>
      let (v, memory) := s.memory.newFunction ⟨declaration, s.env, false⟩
      { s with
        memory := memory.define s.env declaration.name.lexeme v
        control := .complete .normal }
  | .classDecl name superclass methods =>
      let s := { s with memory := s.memory.define s.env name.lexeme .nil }
      match superclass with
      | none => finishClass s name none methods
      | some occurrence => s.evaluating (.inherit name occurrence methods) (.use occurrence)

/-- Goes on with what an operator has computed. -/
def operate (s : State) (operator : Token) (result : Except Failure.Cause Value) : State :=
  match result with
  | .ok v => s.giving v
  | .error cause => s.failing operator cause

/-- Hands a value to the work that waits for it; `s` is the state without that work. -/
def resume (s : State) (v : Value) : Pending → State
  | .unary operator => operate s operator (Value.unary operator.kind v)
  | .leftOperand operator right => s.evaluating (.rightOperand operator v) right
  | .rightOperand operator left => operate s operator (Value.binary operator.kind left v)
  | .logical operator right =>
      match operator.kind, v.isTruthy with
      | .kwOr, true => s.giving v
      | .kwAnd, false => s.giving v
      | _, _ => { s with control := .evaluate right }
  | .choice onTrue onFalse =>
      { s with control := .evaluate (if v.isTruthy then onTrue else onFalse) }
  | .assignment target => assign setting s target v
  | .callee paren [] => call setting s v paren []
  | .callee paren (first :: rest) => s.evaluating (.argument v paren [] rest) first
  | .argument callee paren before [] => call setting s callee paren (before ++ [v])
  | .argument callee paren before (next :: rest) =>
      s.evaluating (.argument callee paren (before ++ [v]) rest) next
  | .property name => getProperty s v name
  | .setTarget name value =>
      match v with
      | .object address _ => s.evaluating (.setValue address name) value
      | _ => s.failing name .notAnInstanceToWrite
  | .setValue address name =>
      { s with
        memory := s.memory.setField address name.lexeme v
        control := .value v }
  | .discard => s.completing .normal
  | .print keyword =>
      let (lost, sink) := s.sink.writeLine v.display
      match lost with
      | none => { s with sink := sink, control := .complete .normal }
      | some reason => { s with sink := sink }.failing keyword (.outputLost reason)
  | .define name =>
      { s with
        memory := s.memory.define s.env name.lexeme v
        control := .complete .normal }
  | .branch onTrue onFalse =>
      if v.isTruthy then { s with control := .execute onTrue }
      else
        match onFalse with
        | some statement => { s with control := .execute statement }
        | none => s.completing .normal
  | .loopTest condition body =>
      if v.isTruthy then
        { s with control := .execute body, pending := .loopBody condition body :: s.pending }
      else s.completing .normal
  | .returning => s.completing (.returned v)
  | .inherit name superclass methods =>
      match v with
      | .classValue class_ => finishClass s name (some class_) methods
      | _ => s.failing superclass.name .superclassNotClass
  -- What is left waits for the end of a statement, and no value gets here.
  | task => { s with control := .complete .normal, pending := task :: s.pending }

/-- What a call yields when its body ends in the given way. -/
def Answer.value (memory : Memory) (c : Completion) : Answer → Value
  | .returned =>
      match c with
      | .returned v => v
      | _ => .nil
  | .receiver env => (memory.readAt? env 0 "this").getD .nil
  | .fixed v => v

/-- Hands the end of a statement to the work that waits for it; `s` is the state without
that work. -/
def unwind (s : State) (c : Completion) : Pending → State
  | .sequence rest =>
      match c, rest with
      | .normal, next :: rest =>
          { s with control := .execute next, pending := .sequence rest :: s.pending }
      | _, _ => s.completing c
  | .loopBody condition body =>
      match c with
      | .normal => s.evaluating (.loopTest condition body) condition
      | .broken => s.completing .normal
      | _ => s.completing c
  | .leaveBlock env => { s with control := .complete c, env := env }
  | .leaveCall env answer =>
      let s := { s with env := env, depth := s.depth - 1 }
      match c with
      | .failed _ => s.completing c
      | _ => s.giving (answer.value s.memory c)
  | _ => s.completing c

/-- The next state; a run that has ended stays as it is. -/
def step (s : State) : State :=
  match s.control, s.pending with
  | .evaluate e, _ => evaluate setting s e
  | .execute statement, _ => execute s statement
  | .value v, task :: rest => resume setting { s with pending := rest } v task
  | .value _, [] => s.completing .normal
  | .complete c, task :: rest => unwind { s with pending := rest } c task
  | .complete _, [] => s

end Lox.Machine
