/-
The data that a program becomes.

What is written for a part of a program is a datum, and in it every symbol that stands
for something of the program is marked with the place it was written for: the mention of
a name with the place of the mention, a name that is bound with the place of what
declares it.  The words of Scheme's own bear no mark.

A declaration in a body binds its name over all that follows it there, so the data of
a row of statements nest: behind a declaration everything else is inside of its form,
and a row that ends in such a form, or is empty, has `#nil` for its value.
-/
import Lox.Proofs.Scheme.Reading
import Lox.Proofs.Syntax.Places

namespace Lox.Scheme

/-- A datum whose symbols are marked with what they were written for. -/
abbrev Marked := Datum (Option Place)

/-- A word of Scheme's, or of the prelude's. -/
def word (text : String) : Marked :=
  .symbol text none

/-- A name, for a place. -/
def mention (p : Place) (text : String) : Marked :=
  .symbol text (some p)

/-- An operator with its operands. -/
def applied (operator : String) (operands : List Marked) : Marked :=
  .list (word operator :: operands)

/-- The name of a property. -/
def property (name : Token) : Marked :=
  .quoted (word name.lexeme)

/-- A procedure. -/
def procedure (params : List Marked) (body : List Marked) : Marked :=
  .list (word "lambda" :: .list params :: body)

@[simp] theorem plain_word (text : String) : (word text).plain = .symbol text () :=
  rfl

@[simp] theorem plain_mention (p : Place) (text : String) :
    (mention p text).plain = .symbol text () :=
  rfl

@[simp] theorem plain_applied (operator : String) (operands : List Marked) :
    (applied operator operands).plain = .list (.symbol operator () :: operands.map Datum.plain) := by
  simp [applied]

@[simp] theorem plain_procedure (params body : List Marked) :
    (procedure params body).plain
      = .list (.symbol "lambda" () :: .list (params.map Datum.plain) :: body.map Datum.plain) := by
  simp [procedure]

/-! ### Expressions -/

/-- A literal. -/
def literalDatum : Literal → Marked
  | .string text => .string text
  | value => word (ofLiteral value)

mutual

/-- The datum of an expression that stands at a place. -/
def exprDatum (p : Place) : Expr → Marked
  | .literal value => literalDatum value
  | .group inner => exprDatum (p.part 0 (.expr inner)) inner
  | .unary operator operand =>
      applied (match operator.kind with | .minus => "-" | _ => "not")
        [exprDatum (p.part 0 (.expr operand)) operand]
  | .binary operator left right =>
      applied (operatorName operator)
        [exprDatum (p.part 0 (.expr left)) left, exprDatum (p.part 1 (.expr right)) right]
  | .logical operator left right =>
      applied operator.lexeme
        [exprDatum (p.part 0 (.expr left)) left, exprDatum (p.part 1 (.expr right)) right]
  | .conditional condition onTrue onFalse =>
      applied "if" [exprDatum (p.part 0 (.expr condition)) condition,
        exprDatum (p.part 1 (.expr onTrue)) onTrue, exprDatum (p.part 2 (.expr onFalse)) onFalse]
  | .use occurrence => mention p (symbol occurrence.name)
  | .assign target value =>
      applied "begin"
        [applied "set!" [mention p (symbol target.name),
          exprDatum (p.part 0 (.expr value)) value], mention p (symbol target.name)]
  | .call callee _ arguments =>
      applied "lox-call" (exprDatum (p.part 0 (.expr callee)) callee :: exprData p 1 arguments)
  | .get object name =>
      applied "lox-get" [exprDatum (p.part 0 (.expr object)) object, property name]
  | .set object name value =>
      applied "lox-set!" [exprDatum (p.part 1 (.expr object)) object, property name,
        exprDatum (p.part 0 (.expr value)) value]
  | .this _ => mention p "this"
  | .super _ method =>
      applied "lox-super" [mention p "%super", mention p "this", property method]

/-- The data of expressions that are parts of a place, the first at the position. -/
def exprData (p : Place) : Nat → List Expr → List Marked
  | _, [] => []
  | position, e :: rest =>
      exprDatum (p.part position (.expr e)) e :: exprData p (position + 1) rest

end

/-- The value of a part that may be missing. -/
def exprDatum? (p : Place) : Option Expr → Marked
  | some e => exprDatum (p.part 0 (.expr e)) e
  | none => word nil

/-! ### Statements -/

/-- The form that binds the name of a declaration in a body, and that name. -/
def binder? : Stmt → Option (String × Token)
  | .var name _ => some ("let", name)
  | .function declaration => some ("letrec", declaration.name)
  | .classDecl name _ _ => some ("letrec", name)
  | _ => none

/-- The parameters of a function. -/
def paramData (p : Place) : Nat → List Token → List Marked
  | _, [] => []
  | position, param :: rest =>
      mention (p.part position (.param param)) (symbol param) :: paramData p (position + 1) rest

/-- The superclass of a class. -/
def aboveDatum (p : Place) : Option Occurrence → Marked
  | some occurrence => exprDatum (p.part 0 (.expr (.use occurrence))) (.use occurrence)
  | none => word nil

mutual

/-- The datum of a statement that stands at a place; of a declaration, the value. -/
def stmtDatum (p : Place) : Stmt → Marked
  | .expression value => exprDatum (p.part 0 (.expr value)) value
  | .print _ value => applied "lox-print" [exprDatum (p.part 0 (.expr value)) value]
  | .var _ initializer => exprDatum? p initializer
  | .block body => .list (word "let" :: .list [] :: rowData p body.isEmpty 0 body)
  | .ifElse condition onTrue none =>
      applied "if" [exprDatum (p.part 0 (.expr condition)) condition,
        stmtDatum (p.part 1 (.stmt onTrue)) onTrue, word nil]
  | .ifElse condition onTrue (some onFalse) =>
      applied "if" [exprDatum (p.part 0 (.expr condition)) condition,
        stmtDatum (p.part 1 (.stmt onTrue)) onTrue, stmtDatum (p.part 2 (.stmt onFalse)) onFalse]
  | .whileLoop condition body =>
      applied "call/cc" [procedure [mention p "%break"]
        [.list [word "let", mention p "%loop", .list [],
          applied "if" [exprDatum (p.part 0 (.expr condition)) condition,
            applied "begin" [stmtDatum (p.part 1 (.stmt body)) body,
              .list [mention p "%loop"]]]]]]
  | .breakLoop _ => .list [mention p "%break", word nil]
  | .returnWith _ value => .list [mention p "%return", exprDatum? p value]
  | .function declaration => functionDatum (p.part 0 (.function declaration)) false declaration
  | .classDecl name superclass methods =>
      .list [word "let",
        .list [.list [mention p "%super", aboveDatum p superclass]],
        applied "lox-class" [.string name.lexeme, mention p "%super",
          applied "list" (methodData p superclass.toList.length methods)]]

/-- The data of statements that are parts of a place, the first at the position; the row
has a value of its own if it is empty or inside of a declaration. -/
def rowData (p : Place) : Bool → Nat → List Stmt → List Marked
  | inside, _, [] => if inside then [word nil] else []
  | inside, position, s :: rest =>
      let q := p.part position (.stmt s)
      match binder? s with
      | some (keyword, name) =>
          [.list (word keyword :: .list [.list [mention q (symbol name), stmtDatum q s]]
            :: rowData p true (position + 1) rest)]
      | none => stmtDatum q s :: rowData p inside (position + 1) rest

/-- The procedure of a function that stands at a place. -/
def functionDatum (p : Place) : Bool → FunctionDecl → Marked
  | isInitializer, ⟨name, params, body⟩ =>
      let escape := applied "call/cc" [procedure [mention p "%return"]
        (rowData p body.isEmpty params.length body)]
      applied "lox-named" [.string ("<fn " ++ name.lexeme ++ ">"),
        procedure (paramData p 0 params)
          [if isInitializer then applied "begin" [escape, mention p "this"] else escape]]

/-- The methods of a class, the first at the position. -/
def methodData (p : Place) : Nat → List FunctionDecl → List Marked
  | _, [] => []
  | position, method :: rest =>
      let q := p.part position (.method method)
      applied "cons" [property method.name, procedure [mention q "this"]
        [functionDatum q (method.name.lexeme = initializerName) method]]
        :: methodData p (position + 1) rest

end

/-! ### Programs -/

/-- The datum of a top-level statement. -/
def topDatum (p : Place) (s : Stmt) : Marked :=
  match binder? s with
  | some (_, name) => applied "define" [mention p (symbol name), stmtDatum p s]
  | none => stmtDatum p s

/-- The data of top-level statements, the first at the position. -/
def topData (p : Place) : Nat → List Stmt → List Marked
  | _, [] => []
  | position, s :: rest =>
      topDatum (p.part position (.stmt s)) s :: topData p (position + 1) rest

/-- The data of a program. -/
def programData (program : List Stmt) : List Marked :=
  topData (.whole program) 0 program

end Lox.Scheme
