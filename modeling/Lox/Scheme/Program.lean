/-
Lox programs as Scheme programs.

Expressions become expressions.  A statement becomes an expression too, except that a
declaration inside a body has to scope over all that follows it there: it opens a `let`
or a `letrec` and leaves it open, the following statements are written inside, and the
end of the body closes everything at once.  At top level a declaration is a `define`.

Early exits are escape procedures: a loop binds `%break`, a function binds `%return`.
-/
import Lox.Scheme.Draft
import Lox.Scheme.Literal
import Lox.Scheme.Prelude
import Lox.Syntax.Tree

namespace Lox.Scheme

/-- A form: an operator and its operands. -/
def form (operator : String) (operands : List String) : String :=
  "(" ++ " ".intercalate (operator :: operands) ++ ")"

/-- The operator of the form that does what a binary operator does. -/
def operatorName (operator : Token) : String :=
  match operator.kind with
  | .equalEqual => "lox-equal?"
  | .comma => "begin"
  | .plus => "add"
  | .slash => "lox-div"
  | _ => operator.lexeme

/-- A property name as a datum. -/
def datum (name : Token) : String :=
  "'" ++ name.lexeme

/-! ### Expressions -/

mutual

/-- An expression. -/
def ofExpr : Expr → String
  | .literal value => ofLiteral value
  | .group inner => ofExpr inner
  | .unary operator operand =>
      form (match operator.kind with | .minus => "-" | _ => "not") [ofExpr operand]
  | .binary operator left right => form (operatorName operator) [ofExpr left, ofExpr right]
  | .logical operator left right => form operator.lexeme [ofExpr left, ofExpr right]
  | .conditional condition onTrue onFalse =>
      form "if" [ofExpr condition, ofExpr onTrue, ofExpr onFalse]
  | .use occurrence => symbol occurrence.name
  | .assign target value =>
      form "begin" [form "set!" [symbol target.name, ofExpr value], symbol target.name]
  | .call callee _ arguments => form "lox-call" (ofExpr callee :: ofExprs arguments)
  | .get object name => form "lox-get" [ofExpr object, datum name]
  | .set object name value => form "lox-set!" [ofExpr object, datum name, ofExpr value]
  | .this _ => "this"
  | .super _ method => form "lox-super" ["%super", "this", datum method]

/-- Several expressions. -/
def ofExprs : List Expr → List String
  | [] => []
  | e :: rest => ofExpr e :: ofExprs rest

end

/-- An expression that may be missing. -/
def ofExpr? : Option Expr → String
  | some e => ofExpr e
  | none => nil

/-! ### Bindings of functions and classes

A function or a class may mention itself, so its binding is opened before its value is
written.
-/

/-- Opens a binding: a `define` at top level, and a `letrec` elsewhere. -/
def openBinding (name : Token) (d : Draft) : Draft :=
  if d.depth = 0 then d.openList ("define " ++ symbol name ++ " ")
  else ((d.openList "letrec ").openList "").openList (symbol name ++ " ")

/-- Closes the binding that was opened at depth `start`; a `letrec` itself stays open
for what follows. -/
def closeBinding (start : Nat) (d : Draft) : Draft :=
  if start = 0 then d.closeTo 0 else d.closeTo (start + 1)

/-- Ends a body that was begun at depth `start`.  An empty body, or one that ends inside
a binding, still needs a value. -/
def endBody (isEmpty : Bool) (start : Nat) (d : Draft) : Draft :=
  let d := if isEmpty || start < d.depth then d.newline.write nil else d
  d.closeTo start

/-! ### Statements -/

mutual

/-- A statement, written behind a draft. -/
def ofStmt : Stmt → Draft → Draft
  | .expression value, d => d.write (ofExpr value)
  | .print _ value, d => d.write (form "lox-print" [ofExpr value])
  | .var name initializer, d =>
      if d.depth = 0 then d.write (form "define" [symbol name, ofExpr? initializer])
      else d.openList ("let (" ++ form (symbol name) [ofExpr? initializer] ++ ")")
  | .block body, d =>
      let d := d.openList "let ()"
      (endBody body.isEmpty d.depth (ofStmts body d)).close
  | .ifElse condition onTrue none, d =>
      let d := ofStmt onTrue (d.openList ("if " ++ ofExpr condition)).newline
      (d.newline.write nil).close
  | .ifElse condition onTrue (some onFalse), d =>
      let d := ofStmt onTrue (d.openList ("if " ++ ofExpr condition)).newline
      (ofStmt onFalse d.newline).close
  | .whileLoop condition body, d =>
      let start := d.depth
      let d := ((d.openList "call/cc ").openList "lambda (%break)").newline
      let d := (d.openList "let %loop ()").newline
      let d := (d.openList ("if " ++ ofExpr condition)).newline
      let d := ofStmt body (d.openList "begin").newline
      (d.newline.write "(%loop)").closeTo start
  | .breakLoop _, d => d.write (form "%break" [nil])
  | .returnWith _ value, d => d.write (form "%return" [ofExpr? value])
  | .function declaration, d =>
      closeBinding d.depth (ofFunction false declaration (openBinding declaration.name d))
  | .classDecl name superclass methods, d =>
      let start := d.depth
      let parent :=
        match superclass with
        | some occurrence => symbol occurrence.name
        | none => nil
      let d := ((openBinding name d).openList ("let ((%super " ++ parent ++ "))")).newline
      let d := (d.openList ("lox-class \"" ++ name.lexeme ++ "\" %super")).newline
      closeBinding start (ofMethods methods (d.openList "list")).close.close.close

/-- Statements, each on a line of its own. -/
def ofStmts : List Stmt → Draft → Draft
  | [], d => d
  | s :: rest, d => ofStmts rest (ofStmt s d.newline)

/-- The procedure for a function, registered under the name it is shown by.  An
initializer yields `this` when its body is done. -/
def ofFunction : Bool → FunctionDecl → Draft → Draft
  | isInitializer, ⟨name, params, body⟩, d =>
      let start := d.depth
      let d := d.openList ("lox-named \"<fn " ++ name.lexeme ++ ">\" ")
      let d := (d.openList
        ("lambda (" ++ " ".intercalate (params.map symbol) ++ ")")).newline
      let d := if isInitializer then (d.openList "begin").newline else d
      let outside := d.depth
      let d := (d.openList "call/cc ").openList "lambda (%return)"
      let d := (endBody body.isEmpty d.depth (ofStmts body d)).closeTo outside
      let d := if isInitializer then d.newline.write "this" else d
      d.closeTo start

/-- The methods of a class: each is its name and a procedure that takes an instance to
the method for that instance. -/
def ofMethods : List FunctionDecl → Draft → Draft
  | [], d => d
  | method :: rest, d =>
      let d := d.newline.openList ("cons " ++ datum method.name ++ " ")
      let d := (d.openList "lambda (this)").newline
      let isInitializer := method.name.lexeme = initializerName
      ofMethods rest (ofFunction isInitializer method d).close.close

end

/-! ### Programs -/

/-- Top-level statements, each ended by a new line. -/
def ofTopLevel : List Stmt → Draft → Draft
  | [], d => d
  | s :: rest, d => ofTopLevel rest (ofStmt s d).newline

/-- A whole program. -/
def program (statements : List Stmt) : String :=
  (ofTopLevel statements (Draft.empty.write prelude)).text

/-- A program as a datum that is handed to Scheme's own pretty printer. -/
def prettyProgram (statements : List Stmt) : String :=
  "(use-modules (ice-9 pretty-print))\n(pretty-print\n'(begin\n" ++ program statements ++ "))\n"

end Lox.Scheme
