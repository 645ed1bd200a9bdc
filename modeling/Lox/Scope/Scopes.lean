/-
The scopes around a place in a program.

A block, a function together with its parameters, and a class (once for `this`, once
more for `super` if it has a superclass) each open a scope.  The program itself does
not: a name that no scope declares is a global, and globals are looked up by name when
the program runs.

A scope knows of each name declared so far whether its declaration is complete.  It is
not while the initializer of a variable is being read.
-/
import Lox.Bindings
import Lox.Syntax.Tree

namespace Lox.Scope

/-- The names of one scope; `false` marks a name whose initializer is being read. -/
abbrev Names := Bindings Bool

/-- The open scopes, the innermost first. -/
abbrev Scopes := List Names

namespace Scopes

/-- Marks a name in the innermost scope; outside of all scopes nothing is marked. -/
def mark (name : String) (complete : Bool) : Scopes → Scopes
  | [] => []
  | names :: outer => names.insert name complete :: outer

/-- Whether the innermost scope declares a name already. -/
def declaresInnermost (name : String) : Scopes → Bool
  | [] => false
  | names :: _ => names.binds name

/-- Whether the innermost scope declares a name whose initializer is being read. -/
def isInitializing (name : String) : Scopes → Bool
  | [] => false
  | names :: _ => names.get? name = some false

/-- How many scopes lie between here and the nearest one that declares a name. -/
def distance? (name : String) (scopes : Scopes) : Option Nat :=
  scopes.findIdx? (fun names => names.binds name)

end Scopes

/-! ### What encloses a place -/

/-- The innermost function around a place. -/
inductive FunctionKind where
  | none
  | function
  | method
  | initializer
  deriving DecidableEq, Repr, Inhabited

/-- The innermost class around a place. -/
inductive ClassKind where
  | none
  | plain
  | derived
  deriving DecidableEq, Repr, Inhabited

/-- What encloses a place; `inLoop` is about loops within the innermost function. -/
structure Context where
  function : FunctionKind
  classKind : ClassKind
  inLoop : Bool
  deriving DecidableEq, Repr, Inhabited

/-- The outside of everything. -/
def Context.topLevel : Context :=
  ⟨.none, .none, false⟩

/-- The body of a function; a loop around the function is not a loop in its body. -/
def Context.inFunction (context : Context) (kind : FunctionKind) : Context :=
  { context with function := kind, inLoop := false }

/-- The kind of a method, which its name decides. -/
def FunctionKind.ofMethod (name : String) : FunctionKind :=
  if name = initializerName then .initializer else .method

end Lox.Scope
