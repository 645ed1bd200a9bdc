/-
A reference for lexical scoping.

This evaluator knows neither distances nor frames.  The local names that are visible at a
place are a list of pairs of names and cells, which nothing ever changes: a declaration
puts a new pair in front of it for the code behind the declaration, and a function keeps
the list of the place it is declared at.  A name that is not in the list is a global, and
globals are looked up by name.

Everything else is as in any evaluator that follows the tree.  What operators compute,
how values look, and how many calls may be active is not about scoping and shared with
the machine.
-/
import Lox.Machine.Step

namespace Lox.Lexical

/-! ### Names and cells -/

/-- A place for the value of one local name. -/
abbrev Cell := Nat

/-- The local names that are visible and their cells, the latest first; none at all
outside of all scopes, where declarations are global. -/
abbrev Visible := Option (List (String × Cell))

/-- What a name stands for. -/
inductive Variable where
  | cell (cell : Cell)
  | global (name : String)
  deriving DecidableEq, Repr, Inhabited

namespace Visible

/-- The same names, inside of a scope. -/
def inside (visible : Visible) : Visible :=
  some (visible.getD [])

/-- The cell of a local name. -/
def cell? (visible : Visible) (name : String) : Option Cell :=
  (visible.getD []).lookup name

/-- What a name stands for. -/
def meaning (visible : Visible) (name : String) : Variable :=
  match visible.cell? name with
  | some cell => .cell cell
  | none => .global name

end Visible

/-- What an evaluation can read and change.  A cell without a value belongs to a variable
whose initializer is being evaluated. -/
structure Store where
  cells : Array (Option (Value Visible))
  globals : Bindings (Value Visible)
  fields : Array (Bindings (Value Visible))
  nextIdentity : Nat
  readings : Nat
  sink : Machine.Sink
  deriving Inhabited

namespace Store

/-- The store in which a session starts. -/
def initial (sink : Machine.Sink) : Store :=
  ⟨#[], [("clock", .clock)], #[], 0, 0, sink⟩

/-- The value of a variable, if it has one. -/
def value? (t : Store) : Variable → Option (Value Visible)
  | .cell cell => t.cells[cell]?.join
  | .global name => t.globals.get? name

/-- Gives a variable a value. -/
def put (t : Store) (target : Variable) (v : Value Visible) : Store :=
  match target with
  | .cell cell => { t with cells := t.cells.setIfInBounds cell (some v) }
  | .global name => { t with globals := t.globals.insert name v }

/-- A field of the instance at an address. -/
def field? (t : Store) (address : Address) (name : String) : Option (Value Visible) :=
  (t.fields.getD address []).get? name

end Store

/-! ### Evaluations -/

/-- How an evaluation ends. -/
inductive Result (α : Type) where
  | done (a : α)
  | failed (failure : Failure)
  | outOfFuel
  deriving Inhabited

/-- An evaluation, which may change the store. -/
def Action (α : Type) : Type :=
  Store → Result α × Store

namespace Action

variable {α β : Type}

/-- Changes nothing. -/
protected def pure (a : α) : Action α :=
  fun t => (.done a, t)

/-- Goes on with the result, unless there is none. -/
protected def bind (p : Action α) (f : α → Action β) : Action β :=
  fun t =>
    match p t with
    | (.done a, t) => f a t
    | (.failed failure, t) => (.failed failure, t)
    | (.outOfFuel, t) => (.outOfFuel, t)

instance : Monad Action where
  pure := Action.pure
  bind := Action.bind

/-- Fails. -/
def fail (token : Token) (cause : Failure.Cause) : Action α :=
  fun t => (.failed ⟨token, cause⟩, t)

/-- Gives up. -/
def exhausted : Action α :=
  fun t => (.outOfFuel, t)

/-- Goes on with what an operator has computed. -/
def operate (operator : Token) : Except Failure.Cause α → Action α
  | .ok a => pure a
  | .error cause => fail operator cause

end Action

open Lox.Lexical.Action

/-! ### Variables -/

/-- A new variable, without a value yet, and what is visible behind it. -/
def declare (visible : Visible) (name : String) : Action (Visible × Variable) :=
  match visible with
  | none => pure (none, .global name)
  | some names =>
      fun t =>
        (.done (some ((name, t.cells.size) :: names), .cell t.cells.size),
          { t with cells := t.cells.push none })

/-- Gives a variable its value. -/
def define (target : Variable) (v : Value Visible) : Action Unit :=
  fun t => (.done (), t.put target v)

/-- New local variables with values, in a scope of their own. -/
def bindAll (visible : Visible) : List (String × Value Visible) → Action Visible
  | [] => pure visible.inside
  | (name, v) :: rest => do
      let (visible, target) ← declare visible.inside name
      define target v
      bindAll visible rest

/-- The value of a variable. -/
def read (visible : Visible) (name : Token) : Action (Value Visible) :=
  fun t =>
    match t.value? (visible.meaning name.lexeme) with
    | some v => (.done v, t)
    | none => (.failed ⟨name, .undefinedVariable name.lexeme⟩, t)

/-- Changes a variable that has a value. -/
def write (visible : Visible) (name : Token) (v : Value Visible) : Action (Value Visible) :=
  fun t =>
    match t.value? (visible.meaning name.lexeme) with
    | some _ => (.done v, t.put (visible.meaning name.lexeme) v)
    | none => (.failed ⟨name, .undefinedVariable name.lexeme⟩, t)

/-! ### Functions, classes and instances -/

/-- A number that no other function or class has. -/
def newIdentity : Action Nat :=
  fun t => (.done t.nextIdentity, { t with nextIdentity := t.nextIdentity + 1 })

/-- A function value. -/
def newFunction (closure : Closure Visible) : Action (Value Visible) := do
  return .function (← newIdentity) closure

/-- A method for one instance: `this` is visible in it. -/
def bindMethod (method : Closure Visible) (this : Value Visible) : Action (Closure Visible) := do
  return { method with env := ← bindAll method.env [("this", this)] }

/-- A method as a value of its own. -/
def newMethod (method : Closure Visible) (this : Value Visible) : Action (Value Visible) := do
  newFunction (← bindMethod method this)

/-- A new instance without fields. -/
def newObject (class_ : Class Visible) : Action (Value Visible) :=
  fun t => (.done (.object t.fields.size class_), { t with fields := t.fields.push [] })

/-- A field of an instance, or else a method of its class. -/
def getProperty (v : Value Visible) (name : Token) : Action (Value Visible) :=
  match v with
  | .object address class_ =>
      fun t =>
        match t.field? address name.lexeme with
        | some field => (.done field, t)
        | none =>
            match class_.find? name.lexeme with
            | some method => newMethod method (.object address class_) t
            | none => fail name (.undefinedProperty name.lexeme) t
  | _ => fail name .notAnInstanceToRead

/-- Sets a field of an instance. -/
def setField (address : Address) (name : Token) (v : Value Visible) : Action (Value Visible) :=
  fun t =>
    (.done v, { t with fields := t.fields.modify address (Bindings.insert name.lexeme v) })

/-- A method of the superclass, for the instance at hand. -/
def inheritedMethod (visible : Visible) (keyword : Occurrence) (method : Token) :
    Action (Value Visible) :=
  fun t =>
    match t.value? (visible.meaning "super"), t.value? (visible.meaning "this") with
    | some (.classValue superclass), some (.object address class_) =>
        match superclass.find? method.lexeme with
        | some closure => newMethod closure (.object address class_) t
        | none => fail method (.undefinedProperty method.lexeme) t
    | _, _ => fail keyword.name .superNotBound t

/-! ### Statements one after the other, and calls -/

/-- How a statement ends; what is visible behind it matters only if the next one follows. -/
inductive Ending where
  | normal (visible : Visible)
  | broken
  | returned (v : Value Visible)
  deriving Inhabited

/-- Evaluates expressions from the left to the right. -/
def evaluateAll (evaluate : Expr → Action (Value Visible)) :
    List Expr → Action (List (Value Visible))
  | [] => pure []
  | e :: rest => do
      let v ← evaluate e
      let vs ← evaluateAll evaluate rest
      return v :: vs

/-- Executes statements as long as they end normally; each sees what the one before it has
declared. -/
def executeAll (execute : Visible → Stmt → Action Ending) :
    Visible → List Stmt → Action Ending
  | visible, [] => pure (.normal visible)
  | visible, s :: rest => do
      match ← execute visible s with
      | .normal visible => executeAll execute visible rest
      | ending => pure ending

/-- Executes the body of a function in a scope of its parameters; the value is what the
body returns, or nil. -/
def invoke (execute : Visible → Stmt → Action Ending) (closure : Closure Visible)
    (arguments : List (Value Visible)) : Action (Value Visible) := do
  let visible ← bindAll closure.env
    ((closure.declaration.params.map Token.lexeme).zip arguments)
  match ← executeAll execute visible closure.declaration.body with
  | .returned v => pure v
  | _ => pure .nil

/-- Makes an instance and calls its initializer, whose value does not matter. -/
def construct (execute : Visible → Stmt → Action Ending) (class_ : Class Visible)
    (arguments : List (Value Visible)) : Action (Value Visible) := do
  let object ← newObject class_
  match class_.find? initializerName with
  | some initializer =>
      let _ ← invoke execute (← bindMethod initializer object) arguments
      pure object
  | none => pure object

/-- The instance that a method is bound to. -/
def receiver (closure : Closure Visible) : Action (Value Visible) :=
  fun t => (.done ((t.value? (closure.env.meaning "this")).getD .nil), t)

/-- What the clock shows at the next reading. -/
def readClock (clock : Nat → Float) : Action (Value Visible) :=
  fun t => (.done (.number (clock t.readings)), { t with readings := t.readings + 1 })

/-- Calls a value, with `depth` calls active; `execute` is for the statements inside. -/
def call (clock : Nat → Float) (execute : Visible → Stmt → Action Ending) (depth : Nat)
    (callee : Value Visible) (paren : Token) (arguments : List (Value Visible)) :
    Action (Value Visible) :=
  match Machine.arity? callee with
  | none => fail paren .notCallable
  | some arity =>
      if arity ≠ arguments.length then
        fail paren (.wrongArgumentCount arity arguments.length)
      else if Machine.maxDepth ≤ depth then fail paren .stackOverflow
      else
        match callee with
        | .function _ closure => do
            let v ← invoke execute closure arguments
            if closure.isInitializer then receiver closure else pure v
        | .classValue class_ => construct execute class_ arguments
        | _ => readClock clock

/-- Makes a class; with a superclass, `super` is visible in its methods. -/
def newClass (visible : Visible) (name : Token) (superclass : Option (Class Visible))
    (methods : List FunctionDecl) : Action (Value Visible) := do
  let visible ← match superclass with
    | some class_ => bindAll visible [("super", .classValue class_)]
    | none => pure visible
  let identity ← newIdentity
  let own : ClassLayer Visible := ⟨identity, name.lexeme, Machine.methodTable visible methods⟩
  return .classValue ⟨own, (superclass.map Class.layers).getD []⟩

/-- Prints a value. -/
def printLine (keyword : Token) (v : Value Visible) : Action Unit :=
  fun t =>
    let (lost, sink) := t.sink.writeLine v.display
    match lost with
    | none => (.done (), { t with sink := sink })
    | some reason => (.failed ⟨keyword, .outputLost reason⟩, { t with sink := sink })

/-! ### The evaluator

The first number bounds the depth of the evaluation, the second counts the calls that
are active.
-/

mutual

/-- The value of an expression. -/
def evaluate (clock : Nat → Float) : Nat → Nat → Visible → Expr → Action (Value Visible)
  | 0, _, _, _ => exhausted
  | fuel + 1, depth, visible, e =>
      match e with
      | .literal literal => pure (.ofLiteral literal)
      | .group inner => evaluate clock fuel depth visible inner
      | .unary operator operand => do
          let v ← evaluate clock fuel depth visible operand
          operate operator (Value.unary operator.kind v)
      | .binary operator left right => do
          let v ← evaluate clock fuel depth visible left
          let w ← evaluate clock fuel depth visible right
          operate operator (Value.binary operator.kind v w)
      | .logical operator left right => do
          let v ← evaluate clock fuel depth visible left
          match operator.kind, v.isTruthy with
          | .kwOr, true => pure v
          | .kwAnd, false => pure v
          | _, _ => evaluate clock fuel depth visible right
      | .conditional condition onTrue onFalse => do
          let v ← evaluate clock fuel depth visible condition
          evaluate clock fuel depth visible (if v.isTruthy then onTrue else onFalse)
      | .use occurrence => read visible occurrence.name
      | .assign target value => do
          let v ← evaluate clock fuel depth visible value
          write visible target.name v
      | .call callee paren arguments => do
          let f ← evaluate clock fuel depth visible callee
          let vs ← evaluateAll (evaluate clock fuel depth visible) arguments
          call clock (execute clock fuel (depth + 1)) depth f paren vs
      | .get object property => do
          let v ← evaluate clock fuel depth visible object
          getProperty v property
      | .set object property value => do
          match ← evaluate clock fuel depth visible object with
          | .object address _ =>
              let v ← evaluate clock fuel depth visible value
              setField address property v
          | _ => fail property .notAnInstanceToWrite
      | .this receiver => read visible receiver.name
      | .super keyword method => inheritedMethod visible keyword method

/-- Executes a statement. -/
def execute (clock : Nat → Float) : Nat → Nat → Visible → Stmt → Action Ending
  | 0, _, _, _ => exhausted
  | fuel + 1, depth, visible, s =>
      match s with
      | .expression value => do
          let _ ← evaluate clock fuel depth visible value
          return .normal visible
      | .print keyword value => do
          let v ← evaluate clock fuel depth visible value
          printLine keyword v
          return .normal visible
      | .var name initializer => do
          let (behind, target) ← declare visible name.lexeme
          let v ← match initializer with
            | some value => evaluate clock fuel depth behind value
            | none => pure .nil
          define target v
          return .normal behind
      | .block body => do
          match ← executeAll (execute clock fuel depth) visible.inside body with
          | .normal _ => return .normal visible
          | ending => return ending
      | .ifElse condition onTrue onFalse => do
          let v ← evaluate clock fuel depth visible condition
          if v.isTruthy then execute clock fuel depth visible onTrue
          else
            match onFalse with
            | some statement => execute clock fuel depth visible statement
            | none => return .normal visible
      | .whileLoop condition body => do
          let v ← evaluate clock fuel depth visible condition
          if v.isTruthy then
            match ← execute clock fuel depth visible body with
            | .normal _ => execute clock fuel depth visible (.whileLoop condition body)
            | .broken => return .normal visible
            | ending => return ending
          else return .normal visible
      | .breakLoop _ => return .broken
      | .returnWith _ none => return .returned .nil
      | .returnWith _ (some value) => do
          let v ← evaluate clock fuel depth visible value
          return .returned v
      | .function declaration => do
          let (behind, target) ← declare visible declaration.name.lexeme
          let f ← newFunction ⟨declaration, behind, false⟩
          define target f
          return .normal behind
      | .classDecl name superclass methods => do
          let (behind, target) ← declare visible name.lexeme
          define target .nil
          match superclass with
          | none =>
              let c ← newClass behind name none methods
              define target c
              return .normal behind
          | some occurrence =>
              match ← read behind occurrence.name with
              | .classValue class_ =>
                  let c ← newClass behind name (some class_) methods
                  define target c
                  return .normal behind
              | _ => fail occurrence.name .superclassNotClass

end

/-! Without fuel there is neither a value nor an ending. -/

theorem evaluate_zero (clock : Nat → Float) (depth : Nat) (visible : Visible) (e : Expr) :
    evaluate clock 0 depth visible e = exhausted := by
  rw [evaluate]

theorem execute_zero (clock : Nat → Float) (depth : Nat) (visible : Visible) (s : Stmt) :
    execute clock 0 depth visible s = exhausted := by
  rw [execute]

end Lox.Lexical
