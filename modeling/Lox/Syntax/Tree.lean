/-
Programs as trees.

An expression that mentions a variable, `this` or `super` does so in an `Occurrence`:
the token, for messages, and a number of its own, by which the scoping analysis says
later what the occurrence refers to.

There is no tree for `for` and none for `!=`; the grammar expresses them by the others.
A class has functions for methods and an occurrence for its superclass, since nothing
else can stand there, and so nobody who reads the tree has to ask.
-/
import Lox.Token

namespace Lox

/-- One mention of a name, told apart from all other mentions by its number. -/
structure Occurrence where
  name : Token
  id : Nat
  deriving DecidableEq, Repr, Inhabited

/-- An expression. -/
inductive Expr where
  | literal (value : Literal)
  | group (inner : Expr)
  | unary (operator : Token) (operand : Expr)
  | binary (operator : Token) (left right : Expr)
  | logical (operator : Token) (left right : Expr)
  | conditional (condition onTrue onFalse : Expr)
  | use (occurrence : Occurrence)
  | assign (target : Occurrence) (value : Expr)
  | call (callee : Expr) (paren : Token) (arguments : List Expr)
  | get (object : Expr) (property : Token)
  | set (object : Expr) (property : Token) (value : Expr)
  | this (receiver : Occurrence)
  | super (keyword : Occurrence) (method : Token)
  deriving Inhabited

mutual

/-- A statement or a declaration. -/
inductive Stmt where
  | expression (value : Expr)
  | print (keyword : Token) (value : Expr)
  | var (name : Token) (initializer : Option Expr)
  | block (body : List Stmt)
  | ifElse (condition : Expr) (onTrue : Stmt) (onFalse : Option Stmt)
  | whileLoop (condition : Expr) (body : Stmt)
  | breakLoop (keyword : Token)
  | function (declaration : FunctionDecl)
  | returnWith (keyword : Token) (value : Option Expr)
  | classDecl (name : Token) (superclass : Option Occurrence) (methods : List FunctionDecl)

/-- A function or a method: its name, its parameters and the statements of its body. -/
structure FunctionDecl where
  name : Token
  params : List Token
  body : List Stmt

end

instance : Inhabited Stmt := ⟨.block []⟩
instance : Inhabited FunctionDecl := ⟨⟨default, [], []⟩⟩

/-- A method of this name initializes the instances of its class. -/
def initializerName : String := "init"

end Lox
