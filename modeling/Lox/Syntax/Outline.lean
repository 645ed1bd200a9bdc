/-
The outline of a program: its tree as parenthesized text.

Every node with parts is a list whose head says what it is, the parts following in
order and separated by single spaces.  Tokens that only matter for messages, and the
numbers of occurrences, are left out.
-/
import Lox.Decimal.Layout
import Lox.Syntax.Tree

namespace Lox

/-- Numbers in a program's own terms: the fewest digits, never an exponent. -/
def numberLayout : Decimal.Layout where
  positional := none
  pointed := false
  notANumber := "NaN"
  infinity := "inf"
  negativeInfinity := "-inf"

/-- A literal as a program shows it; a string is shown without its quotes. -/
def Literal.display : Literal → String
  | string text => text
  | number value => numberLayout.render value
  | nil => "nil"
  | bool true => "true"
  | bool false => "false"

/-- A list with a head and further parts. -/
def outlineList (head : String) (parts : List String) : String :=
  "(" ++ " ".intercalate (head :: parts) ++ ")"

mutual

/-- The outline of an expression. -/
def Expr.outline : Expr → String
  | .literal value => value.display
  | .group inner => outlineList "group" [inner.outline]
  | .unary operator operand => outlineList operator.lexeme [operand.outline]
  | .binary operator left right => outlineList operator.lexeme [left.outline, right.outline]
  | .logical operator left right => outlineList operator.lexeme [left.outline, right.outline]
  | .conditional condition onTrue onFalse =>
      outlineList "?:" [condition.outline, onTrue.outline, onFalse.outline]
  | .use occurrence => occurrence.name.lexeme
  | .assign target value => outlineList "=" [target.name.lexeme, value.outline]
  | .call callee _ arguments => outlineList "call" (callee.outline :: Expr.outlines arguments)
  | .get object property => outlineList "get" [object.outline, property.lexeme]
  | .set object property value =>
      outlineList "set" [object.outline, property.lexeme, value.outline]
  | .this _ => "this"
  | .super _ method => outlineList "super" [method.lexeme]

/-- The outlines of several expressions. -/
def Expr.outlines : List Expr → List String
  | [] => []
  | e :: rest => e.outline :: Expr.outlines rest

end

mutual

/-- The outline of a statement. -/
def Stmt.outline : Stmt → String
  | .expression value => value.outline
  | .print _ value => outlineList "print" [value.outline]
  | .var name none => outlineList "var" [name.lexeme]
  | .var name (some value) => outlineList "var" [name.lexeme, value.outline]
  | .block body => outlineList "block" (Stmt.outlines body)
  | .ifElse condition onTrue none => outlineList "if" [condition.outline, onTrue.outline]
  | .ifElse condition onTrue (some onFalse) =>
      outlineList "if" [condition.outline, onTrue.outline, onFalse.outline]
  | .whileLoop condition body => outlineList "while" [condition.outline, body.outline]
  | .breakLoop _ => outlineList "break" []
  | .function declaration => declaration.outline
  | .returnWith _ none => outlineList "return" []
  | .returnWith _ (some value) => outlineList "return" [value.outline]
  | .classDecl name none methods =>
      outlineList "class" (name.lexeme :: FunctionDecl.outlines methods)
  | .classDecl name (some superclass) methods =>
      outlineList "class"
        (name.lexeme :: ("< " ++ superclass.name.lexeme) :: FunctionDecl.outlines methods)

/-- The outlines of several statements. -/
def Stmt.outlines : List Stmt → List String
  | [] => []
  | s :: rest => s.outline :: Stmt.outlines rest

/-- The outline of a function: its name, the list of its parameters, the list of its
statements. -/
def FunctionDecl.outline : FunctionDecl → String
  | ⟨name, params, body⟩ =>
      outlineList "fun"
        [name.lexeme,
         "(" ++ " ".intercalate (params.map Token.lexeme) ++ ")",
         "(" ++ " ".intercalate (Stmt.outlines body) ++ ")"]

/-- The outlines of several functions. -/
def FunctionDecl.outlines : List FunctionDecl → List String
  | [] => []
  | f :: rest => f.outline :: FunctionDecl.outlines rest

end

/-- The outline of a program, a line for each of its statements. -/
def outlineProgram (program : List Stmt) : String :=
  String.join ((Stmt.outlines program).map (· ++ "\n"))

theorem Expr.outlines_eq_map (es : List Expr) : Expr.outlines es = es.map Expr.outline := by
  induction es with
  | nil => rfl
  | cons e rest ih => rw [Expr.outlines, ih, List.map_cons]

theorem Stmt.outlines_eq_map (ss : List Stmt) : Stmt.outlines ss = ss.map Stmt.outline := by
  induction ss with
  | nil => rfl
  | cons s rest ih => rw [Stmt.outlines, ih, List.map_cons]

theorem FunctionDecl.outlines_eq_map (fs : List FunctionDecl) :
    FunctionDecl.outlines fs = fs.map FunctionDecl.outline := by
  induction fs with
  | nil => rfl
  | cons f rest ih => rw [FunctionDecl.outlines, ih, List.map_cons]

end Lox
