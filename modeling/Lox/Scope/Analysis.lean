/-
The scoping analysis.

It walks a program in the order in which the parts would be met when run, keeps the
scopes that are open, and makes two lists: for each occurrence of a name that some open
scope declares, how many scopes out that is; and the faults of the scoping rules.  A
fault does not stop it.

Only declarations change the scopes, and only the innermost one, so an expression is
analysed in given scopes and a statement hands the scopes on to the next.  Everything
else that matters about a place, `Context`, is passed down and never handed on.
-/
import Lox.Fault
import Lox.Scope.Scopes

namespace Lox.Scope

/-- What the analysis of a part of a program found, in the order of the walk. -/
structure Findings where
  /-- Occurrences, by number, and their distances. -/
  locals : List (Nat × Nat)
  faults : List Fault
  deriving DecidableEq, Repr, Inhabited

namespace Findings

/-- Nothing was found. -/
def nothing : Findings := ⟨[], []⟩

/-- The findings of one part and then of another. -/
protected def append (a b : Findings) : Findings :=
  ⟨a.locals ++ b.locals, a.faults ++ b.faults⟩

instance : Append Findings := ⟨Findings.append⟩

@[simp] theorem append_locals (a b : Findings) : (a ++ b).locals = a.locals ++ b.locals :=
  rfl

@[simp] theorem append_faults (a b : Findings) : (a ++ b).faults = a.faults ++ b.faults :=
  rfl

/-- A fault at a token, if the condition holds. -/
def faultIf (condition : Bool) (token : Token) (cause : Fault.Cause) : Findings :=
  if condition then ⟨[], [Fault.atToken token cause]⟩ else nothing

/-- The distance of an occurrence with this number, unless the name is a global. -/
def local? (scopes : Scopes) (name : String) (id : Nat) : Findings :=
  match scopes.distance? name with
  | some distance => ⟨[(id, distance)], []⟩
  | none => nothing

end Findings

open Findings

/-! ### Expressions -/

mutual

/-- The findings in an expression. -/
def ofExpr (context : Context) (scopes : Scopes) : Expr → Findings
  | .literal _ => nothing
  | .group inner => ofExpr context scopes inner
  | .unary _ operand => ofExpr context scopes operand
  | .binary _ left right => ofExpr context scopes left ++ ofExpr context scopes right
  | .logical _ left right => ofExpr context scopes left ++ ofExpr context scopes right
  | .conditional condition onTrue onFalse =>
      ofExpr context scopes condition ++ ofExpr context scopes onTrue
        ++ ofExpr context scopes onFalse
  | .use occurrence =>
      faultIf (scopes.isInitializing occurrence.name.lexeme) occurrence.name
          .readInOwnInitializer
        ++ local? scopes occurrence.name.lexeme occurrence.id
  | .assign target value =>
      ofExpr context scopes value ++ local? scopes target.name.lexeme target.id
  | .call callee _ arguments => ofExpr context scopes callee ++ ofExprs context scopes arguments
  | .get object _ => ofExpr context scopes object
  | .set object _ value => ofExpr context scopes value ++ ofExpr context scopes object
  | .this receiver =>
      if context.classKind = .none then faultIf true receiver.name .thisOutsideClass
      else local? scopes "this" receiver.id
  | .super keyword _ =>
      faultIf (context.classKind = .none) keyword.name .superOutsideClass
        ++ faultIf (context.classKind = .plain) keyword.name .superWithoutSuperclass
        ++ local? scopes "super" keyword.id

/-- The findings in several expressions. -/
def ofExprs (context : Context) (scopes : Scopes) : List Expr → Findings
  | [] => nothing
  | e :: rest => ofExpr context scopes e ++ ofExprs context scopes rest

end

/-! ### Statements

A statement hands on the scopes as its declarations leave them.
-/

/-- The fault of declaring a name a second time in one scope. -/
def redeclared (scopes : Scopes) (name : Token) : Findings :=
  faultIf (scopes.declaresInnermost name.lexeme) name .alreadyDeclared

/-- The scope of a function's parameters, and their faults. -/
def ofParams : Scopes → List Token → Scopes × Findings
  | scopes, [] => (scopes, nothing)
  | scopes, param :: rest =>
      let (after, found) := ofParams (scopes.mark param.lexeme true) rest
      (after, redeclared scopes param ++ found)

/-- The scopes in which the methods of a class are analysed. -/
def classScopes (scopes : Scopes) (superclass : Option Occurrence) : Scopes :=
  match superclass with
  | none => [("this", true)] :: scopes
  | some _ => [("this", true)] :: [("super", true)] :: scopes

/-- The faults and the distance of a class's superclass. -/
def ofSuperclass (context : Context) (scopes : Scopes) (name : Token)
    (superclass : Option Occurrence) : Findings :=
  match superclass with
  | none => nothing
  | some occurrence =>
      faultIf (occurrence.name.lexeme = name.lexeme) occurrence.name .inheritsFromItself
        ++ ofExpr context scopes (.use occurrence)

mutual

/-- The findings in a statement, and the scopes behind it. -/
def ofStmt (context : Context) (scopes : Scopes) : Stmt → Scopes × Findings
  | .expression value => (scopes, ofExpr context scopes value)
  | .print _ value => (scopes, ofExpr context scopes value)
  | .var name none =>
      (scopes.mark name.lexeme true, redeclared scopes name)
  | .var name (some value) =>
      (scopes.mark name.lexeme true,
        redeclared scopes name ++ ofExpr context (scopes.mark name.lexeme false) value)
  | .block body => (scopes, ofStmts context ([] :: scopes) body)
  | .ifElse condition onTrue none =>
      let found := ofExpr context scopes condition
      let (scopes, inTrue) := ofStmt context scopes onTrue
      (scopes, found ++ inTrue)
  | .ifElse condition onTrue (some onFalse) =>
      let found := ofExpr context scopes condition
      let (scopes, inTrue) := ofStmt context scopes onTrue
      let (scopes, inFalse) := ofStmt context scopes onFalse
      (scopes, found ++ inTrue ++ inFalse)
  | .whileLoop condition body =>
      let found := ofExpr context scopes condition
      let (scopes, inBody) := ofStmt { context with inLoop := true } scopes body
      (scopes, found ++ inBody)
  | .breakLoop keyword => (scopes, faultIf (!context.inLoop) keyword .breakOutsideLoop)
  | .returnWith keyword none =>
      (scopes, faultIf (context.function = .none) keyword .returnOutsideFunction)
  | .returnWith keyword (some value) =>
      (scopes,
        faultIf (context.function = .none) keyword .returnOutsideFunction
          ++ faultIf (context.function = .initializer) keyword .returnValueFromInitializer
          ++ ofExpr context scopes value)
  | .function declaration =>
      let inside := scopes.mark declaration.name.lexeme true
      (inside, redeclared scopes declaration.name
        ++ ofFunction (context.inFunction .function) inside declaration)
  | .classDecl name superclass methods =>
      let inside := scopes.mark name.lexeme true
      let kind := if superclass.isSome then ClassKind.derived else ClassKind.plain
      let context := { context with classKind := kind }
      (inside, redeclared scopes name ++ ofSuperclass context inside name superclass
        ++ ofMethods context (classScopes inside superclass) methods)

/-- The findings in statements one after the other. -/
def ofStmts (context : Context) (scopes : Scopes) : List Stmt → Findings
  | [] => nothing
  | s :: rest =>
      let (after, found) := ofStmt context scopes s
      found ++ ofStmts context after rest

/-- The findings in the parameters and the body of a function, which share one scope. -/
def ofFunction (context : Context) (scopes : Scopes) : FunctionDecl → Findings
  | ⟨_, params, body⟩ =>
      let (inside, found) := ofParams ([] :: scopes) params
      found ++ ofStmts context inside body

/-- The findings in the methods of a class. -/
def ofMethods (context : Context) (scopes : Scopes) : List FunctionDecl → Findings
  | [] => nothing
  | method :: rest =>
      ofFunction (context.inFunction (.ofMethod method.name.lexeme)) scopes method
        ++ ofMethods context scopes rest

end

/-- The findings in a whole program. -/
def analyse (program : List Stmt) : Findings :=
  ofStmts .topLevel [] program

end Lox.Scope
