/-
The states of the machine that runs programs.

A state says what is being done just now, its `Control`, and what is still to be done
with the outcome, a stack of `Pending` work.  Evaluating an expression ends in a value
that goes to the topmost pending work; executing a statement ends in a `Completion`,
which is either normal or one of three ways to leave the statements around it early.

Whoever opens frames or enters a call leaves a note on the stack with the environment
to go back to.  Every completion passes these notes on its way down, a failure too, so
the environment and the count of active calls are always put back.
-/
import Lox.Scope.Locals
import Lox.Value.Failure
import Lox.Value.Memory

namespace Lox.Machine

/-- How a statement ends. -/
inductive Completion where
  | normal
  | broken
  | returned (value : Value)
  | failed (failure : Failure)
  deriving Inhabited

/-- What is being done. -/
inductive Control where
  | evaluate (e : Expr)
  | value (v : Value)
  | execute (s : Stmt)
  | complete (c : Completion)
  deriving Inhabited

/-- What a call yields when its body is done. -/
inductive Answer where
  /-- The value returned, or nil. -/
  | returned
  /-- What `this` is bound to in the innermost of these frames, whatever is returned. -/
  | receiver (env : Env)
  /-- A value that was known before the body was run. -/
  | fixed (value : Value)
  deriving Inhabited

/-- Work that waits for what is being done. -/
inductive Pending where
  -- waiting for the value of an expression
  | unary (operator : Token)
  | leftOperand (operator : Token) (right : Expr)
  | rightOperand (operator : Token) (left : Value)
  | logical (operator : Token) (right : Expr)
  | choice (onTrue onFalse : Expr)
  | assignment (target : Occurrence)
  | callee (paren : Token) (arguments : List Expr)
  | argument (callee : Value) (paren : Token) (before : List Value) (after : List Expr)
  | property (name : Token)
  | setTarget (name : Token) (value : Expr)
  | setValue (address : Address) (name : Token)
  | discard
  | print (keyword : Token)
  | define (name : Token)
  | branch (onTrue : Stmt) (onFalse : Option Stmt)
  | loopTest (condition : Expr) (body : Stmt)
  | returning
  | inherit (name : Token) (superclass : Occurrence) (methods : List FunctionDecl)
  -- waiting for the end of a statement
  | sequence (rest : List Stmt)
  | loopBody (condition : Expr) (body : Stmt)
  | leaveBlock (env : Env)
  | leaveCall (env : Env) (answer : Answer)
  deriving Inhabited

/-- A line that could not be written, or not all of it. -/
structure Loss where
  /-- How many of its characters came through nevertheless. -/
  written : Nat
  reason : String
  deriving DecidableEq, Repr, Inhabited

/-- Where the output goes.  A writer may fail at any line, and take lines again after that; what
it does with a line may depend on all that it was given before. -/
structure Sink where
  /-- What is lost of a line that comes after others, of which the latest is the first. -/
  writer : List String → String → Option Loss
  /-- The lines that the writer was given so far, the latest first. -/
  given : List String
  /-- The text that came through. -/
  text : String

namespace Sink

/-- All that is written comes through. -/
def working (written : String) : Sink :=
  ⟨fun _ _ => none, [], written⟩

/-- Nothing can be written, for a reason. -/
def lost (reason : String) : Sink :=
  ⟨fun _ _ => some ⟨0, reason⟩, [], ""⟩

instance : Inhabited Sink := ⟨working ""⟩

/-- Writes a line, and says why if that fails. -/
def writeLine (line : String) (sink : Sink) : Option String × Sink :=
  let loss := sink.writer sink.given line
  let written :=
    match loss with
    | none => line ++ "\n"
    | some loss => String.ofList ((line ++ "\n").toList.take loss.written)
  (loss.map Loss.reason,
    { sink with given := line :: sink.given, text := sink.text ++ written })

end Sink

/-- A state of the machine. -/
structure State where
  control : Control
  pending : List Pending
  env : Env
  /-- How many calls are active. -/
  depth : Nat
  memory : Memory
  sink : Sink
  deriving Inhabited

/-- What a run is given from outside: the distances of the occurrences, and what the
clock shows at each reading. -/
structure Setting where
  locals : Scope.Locals
  clock : Nat → Float

/-- The most calls that may be active. -/
def maxDepth : Nat := 4096

namespace State

/-- Goes on to evaluate `e`, keeping `task` for its value. -/
def evaluating (s : State) (task : Pending) (e : Expr) : State :=
  { s with control := .evaluate e, pending := task :: s.pending }

/-- Goes on with the value of an expression. -/
def giving (s : State) (v : Value) : State :=
  { s with control := .value v }

/-- Goes on with the end of a statement. -/
def completing (s : State) (c : Completion) : State :=
  { s with control := .complete c }

/-- Goes on with a failure. -/
def failing (s : State) (token : Token) (cause : Failure.Cause) : State :=
  s.completing (.failed ⟨token, cause⟩)

/-- How the run ended, if it has. -/
def ended? (s : State) : Option Completion :=
  match s.control, s.pending with
  | .complete c, [] => some c
  | _, _ => none

/-- The state in which a program is about to be run. -/
def start (program : List Stmt) (env : Env) (depth : Nat) (memory : Memory) (sink : Sink) :
    State :=
  ⟨.complete .normal, [.sequence program], env, depth, memory, sink⟩

end State

end Lox.Machine
