/-
The rules of scoping.

Each rule forbids a part of a program because of what is around it, and says at which
token that is a fault and what the fault is.  The rules look at places only: at the
parts around a part and at those that stand in front of it in the same scope.  How one
would walk through a program to find offences is not said here.
-/
import Lox.Fault
import Lox.Proofs.Syntax.Places

namespace Lox

namespace Place

/-! ### What the rules look at -/

/-- The innermost function or method around a place. -/
def function? (p : Place) : Option Node :=
  p.around.find? Node.isFunction

/-- The innermost class declaration around a place. -/
def class? (p : Place) : Option Node :=
  p.around.find? Node.isClass

/-- Whether a loop is around a place, and no function between the two. -/
def inLoop (p : Place) : Bool :=
  (p.around.takeWhile (fun node => !node.isFunction)).any Node.isLoop

/-- The names that are declared in the same scope and further to the front. -/
def earlier (p : Place) : List Token :=
  match p.site with
  | (parent, position) :: _ => (parent.parts.take position).filterMap Node.declared?
  | [] => []

/-- Whether a place stands directly in a scope; the program is none. -/
def inScope (p : Place) : Bool :=
  match p.site with
  | (parent, _) :: _ => parent.isScope
  | [] => false

/-- The scope of a place has a declaration of the name in front of it. -/
def Declares (p : Place) (name : String) : Prop :=
  p.inScope = true ∧ ∃ token ∈ p.earlier, token.lexeme = name

/-- The innermost statement around a place is the declaration of a variable of the name,
and that stands in a scope. -/
inductive Initializes (name : String) : List Node → Prop
  | inner {node : Node} {around : List Node} (hexpr : node.isStmt = false)
      (h : Initializes name around) : Initializes name (node :: around)
  | var {token : Token} {initializer : Option Expr} {scope : Node} {around : List Node}
      (hname : token.lexeme = name) (hscope : scope.isScope = true) :
      Initializes name (.stmt (.var token initializer) :: scope :: around)

end Place

open Place

/-! ### The rules -/

/-- `Offence p token cause`: what stands at the place breaks a rule of scoping, which is a
fault at the token. -/
inductive Offence (p : Place) : Token → Fault.Cause → Prop
  /-- A `return` with no function around it. -/
  | returnOutsideFunction {keyword : Token} {value : Option Expr}
      (hnode : p.node = .stmt (.returnWith keyword value)) (hfunction : p.function? = none) :
      Offence p keyword .returnOutsideFunction
  /-- A `return` with a value, where the innermost function is a method named `init`. -/
  | returnValueFromInitializer {keyword : Token} {value : Expr} {method : FunctionDecl}
      (hnode : p.node = .stmt (.returnWith keyword (some value)))
      (hfunction : p.function? = some (.method method))
      (hname : method.name.lexeme = initializerName) :
      Offence p keyword .returnValueFromInitializer
  /-- A `break` with no loop between it and the innermost function. -/
  | breakOutsideLoop {keyword : Token} (hnode : p.node = .stmt (.breakLoop keyword))
      (hloop : p.inLoop = false) : Offence p keyword .breakOutsideLoop
  /-- A `this` with no class around it. -/
  | thisOutsideClass {receiver : Occurrence} (hnode : p.node = .expr (.this receiver))
      (hclass : p.class? = none) : Offence p receiver.name .thisOutsideClass
  /-- A `super` with no class around it. -/
  | superOutsideClass {keyword : Occurrence} {method : Token}
      (hnode : p.node = .expr (.super keyword method)) (hclass : p.class? = none) :
      Offence p keyword.name .superOutsideClass
  /-- A `super` where the innermost class has no superclass. -/
  | superWithoutSuperclass {keyword : Occurrence} {method name : Token}
      {methods : List FunctionDecl} (hnode : p.node = .expr (.super keyword method))
      (hclass : p.class? = some (.stmt (.classDecl name none methods))) :
      Offence p keyword.name .superWithoutSuperclass
  /-- A class that names itself as its superclass. -/
  | inheritsFromItself {name : Token} {superclass : Occurrence} {methods : List FunctionDecl}
      (hnode : p.node = .stmt (.classDecl name (some superclass) methods))
      (hname : superclass.name.lexeme = name.lexeme) :
      Offence p superclass.name .inheritsFromItself
  /-- A variable, function, class or parameter whose scope declares its name already. -/
  | alreadyDeclared {name : Token} (hnode : p.node.declared? = some name)
      (hdeclared : p.Declares name.lexeme) : Offence p name .alreadyDeclared
  /-- A variable that is read in the initializer of its own declaration. -/
  | readInOwnInitializer {occurrence : Occurrence} (hnode : p.node = .expr (.use occurrence))
      (hinitializes : Initializes occurrence.name.lexeme p.around) :
      Offence p occurrence.name .readInOwnInitializer

end Lox
