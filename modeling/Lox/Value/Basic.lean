/-
Values: what expressions evaluate to.

Functions, classes and instances are told apart by identity, not by what they are made
of: every function declared, every method taken from an instance and every class
declared gets a number of its own, and an instance is the place where its fields are
kept.

What a function remembers of its surroundings is the row of frames that were open where
it was declared, the innermost first.  The frames themselves live in a memory shared by
all functions that remember them.  Nothing else about values depends on what functions
remember, so that is a parameter, `ε`, of all these types.
-/
import Lox.Bindings
import Lox.Syntax.Outline

namespace Lox

/-- A place in the memory. -/
abbrev Address := Nat

/-- The open frames, the innermost first. -/
abbrev Env := List Address

/-- A function's code together with the frames it was declared in. -/
structure Closure (ε : Type := Env) where
  declaration : FunctionDecl
  env : ε
  /-- A method that initializes instances yields the instance, whatever it returns. -/
  isInitializer : Bool
  deriving Inhabited

/-- What a single class declaration contributes: its name and its own methods. -/
structure ClassLayer (ε : Type := Env) where
  identity : Nat
  name : String
  methods : Bindings (Closure ε)
  deriving Inhabited

/-- A class: its own layer, and those it inherits from, the nearest first. -/
structure Class (ε : Type := Env) where
  own : ClassLayer ε
  inherited : List (ClassLayer ε)
  deriving Inhabited

/-- A value of a running program. -/
inductive Value (ε : Type := Env) where
  | nil
  | bool (value : Bool)
  | number (value : Float)
  | string (text : String)
  /-- The built-in function that reads the clock. -/
  | clock
  | function (identity : Nat) (closure : Closure ε)
  | classValue (class_ : Class ε)
  | object (address : Address) (class_ : Class ε)
  deriving Inhabited

namespace Class

variable {ε : Type}

/-- All layers of a class, the nearest first. -/
def layers (c : Class ε) : List (ClassLayer ε) :=
  c.own :: c.inherited

/-- The method of a name that is nearest in the chain of layers. -/
def find? (c : Class ε) (name : String) : Option (Closure ε) :=
  c.layers.findSome? (fun layer => layer.methods.get? name)

/-- The number of arguments with which instances are made. -/
def arity (c : Class ε) : Nat :=
  match c.find? initializerName with
  | some initializer => initializer.declaration.params.length
  | none => 0

end Class

namespace Value

variable {ε : Type}

/-- What a literal evaluates to. -/
def ofLiteral : Literal → Value ε
  | .string text => .string text
  | .number value => .number value
  | .nil => .nil
  | .bool value => .bool value

/-- Only `nil` and `false` count as false. -/
def isTruthy : Value ε → Bool
  | nil | bool false => false
  | _ => true

/-- Whether two values are equal: numbers as numbers are, so that no NaN equals itself,
and whatever has an identity by that. -/
def equals : Value ε → Value ε → Bool
  | nil, nil => true
  | bool a, bool b => a == b
  | number a, number b => a == b
  | string a, string b => a == b
  | clock, clock => true
  | function i _, function j _ => i == j
  | classValue a, classValue b => a.own.identity == b.own.identity
  | object a _, object b _ => a == b
  | _, _ => false

/-- The text that `print` writes for a value. -/
def display : Value ε → String
  | nil => Literal.nil.display
  | bool value => (Literal.bool value).display
  | number value => (Literal.number value).display
  | string text => text
  | clock => "<native fn>"
  | function _ closure => "<fn " ++ closure.declaration.name.lexeme ++ ">"
  | classValue class_ => class_.own.name
  | object _ class_ => class_.own.name ++ " instance"

end Value

end Lox
