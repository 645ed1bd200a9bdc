/-
What the outline of a program nests.

The outline of a tree is the text of nested words (`text_nested`): each part with parts of its
own is a list that begins with a word for it.  A class with a superclass is no exception, for
`< B` are two words.
-/
import Lox.Proofs.Outline.Nested

namespace Lox

open Outline

/-- A name in an outline. -/
def Token.nested (name : Token) : Outline :=
  .word name.lexeme

mutual

/-- What the outline of an expression nests. -/
def Expr.nested : Expr → Outline
  | .literal value => .word value.display
  | .group inner => headed "group" [inner.nested]
  | .unary operator operand => headed operator.lexeme [operand.nested]
  | .binary operator left right => headed operator.lexeme [left.nested, right.nested]
  | .logical operator left right => headed operator.lexeme [left.nested, right.nested]
  | .conditional condition onTrue onFalse =>
      headed "?:" [condition.nested, onTrue.nested, onFalse.nested]
  | .use occurrence => occurrence.name.nested
  | .assign target value => headed "=" [target.name.nested, value.nested]
  | .call callee _ arguments => headed "call" (callee.nested :: Expr.nestedAll arguments)
  | .get object property => headed "get" [object.nested, property.nested]
  | .set object property value =>
      headed "set" [object.nested, property.nested, value.nested]
  | .this _ => .word "this"
  | .super _ method => headed "super" [method.nested]

/-- What the outlines of several expressions nest. -/
def Expr.nestedAll : List Expr → List Outline
  | [] => []
  | e :: rest => e.nested :: Expr.nestedAll rest

end

mutual

/-- What the outline of a statement nests. -/
def Stmt.nested : Stmt → Outline
  | .expression value => value.nested
  | .print _ value => headed "print" [value.nested]
  | .var name none => headed "var" [name.nested]
  | .var name (some value) => headed "var" [name.nested, value.nested]
  | .block body => headed "block" (Stmt.nestedAll body)
  | .ifElse condition onTrue none => headed "if" [condition.nested, onTrue.nested]
  | .ifElse condition onTrue (some onFalse) =>
      headed "if" [condition.nested, onTrue.nested, onFalse.nested]
  | .whileLoop condition body => headed "while" [condition.nested, body.nested]
  | .breakLoop _ => headed "break" []
  | .function declaration => declaration.nested
  | .returnWith _ none => headed "return" []
  | .returnWith _ (some value) => headed "return" [value.nested]
  | .classDecl name none methods =>
      headed "class" (name.nested :: FunctionDecl.nestedAll methods)
  | .classDecl name (some superclass) methods =>
      headed "class"
        (name.nested :: .word "<" :: superclass.name.nested :: FunctionDecl.nestedAll methods)

/-- What the outlines of several statements nest. -/
def Stmt.nestedAll : List Stmt → List Outline
  | [] => []
  | s :: rest => s.nested :: Stmt.nestedAll rest

/-- What the outline of a function nests. -/
def FunctionDecl.nested : FunctionDecl → Outline
  | ⟨name, params, body⟩ =>
      headed "fun" [name.nested, .list (params.map Token.nested), .list (Stmt.nestedAll body)]

/-- What the outlines of several functions nest. -/
def FunctionDecl.nestedAll : List FunctionDecl → List Outline
  | [] => []
  | f :: rest => f.nested :: FunctionDecl.nestedAll rest

end

/-! ### The text of it -/

@[simp] theorem Token.text_nested (name : Token) : name.nested.text = name.lexeme :=
  rfl

@[simp] theorem Token.text_comp_nested : text ∘ nested = lexeme :=
  rfl

/-- Words with a space in between are words one after the other. -/
theorem outlineList_append (head : String) {first second third : String} (rest : List String) :
    outlineList head (first :: (second ++ " " ++ third) :: rest)
      = outlineList head (first :: second :: third :: rest) := by
  cases rest with
  | nil => simp only [outlineList, String.intercalate_cons_cons, String.intercalate_singleton,
      String.append_assoc]
  | cons fourth rest => simp only [outlineList, String.intercalate_cons_cons, String.append_assoc]

mutual

theorem Expr.text_nested : ∀ e : Expr, e.nested.text = e.outline
  | .literal _ | .use _ | .this _ => rfl
  | .super _ _ => by simp [nested, outline]
  | .group inner | .unary _ inner | .get inner _ | .assign _ inner => by
      simp [nested, outline, Expr.text_nested inner]
  | .binary _ left right | .logical _ left right | .set left _ right => by
      simp [nested, outline, Expr.text_nested left, Expr.text_nested right]
  | .conditional condition onTrue onFalse => by
      simp [nested, outline, Expr.text_nested condition, Expr.text_nested onTrue,
        Expr.text_nested onFalse]
  | .call callee _ arguments => by
      simp [nested, outline, Expr.text_nested callee, Expr.map_text_nestedAll arguments]

theorem Expr.map_text_nestedAll : ∀ es : List Expr,
    (Expr.nestedAll es).map text = Expr.outlines es
  | [] => rfl
  | e :: rest => by
      rw [nestedAll, outlines, List.map_cons, Expr.text_nested e, Expr.map_text_nestedAll rest]

end

mutual

theorem Stmt.text_nested : ∀ s : Stmt, s.nested.text = s.outline
  | .expression value => Expr.text_nested value
  | .var _ none | .breakLoop _ | .returnWith _ none => by simp [Stmt.nested, Stmt.outline]
  | .print _ value | .var _ (some value) | .returnWith _ (some value) => by
      simp [Stmt.nested, Stmt.outline, Expr.text_nested value]
  | .block body => by
      simp [Stmt.nested, Stmt.outline, Stmt.map_text_nestedAll body]
  | .ifElse condition onTrue none => by
      simp [Stmt.nested, Stmt.outline, Expr.text_nested condition, Stmt.text_nested onTrue]
  | .ifElse condition onTrue (some onFalse) => by
      simp [Stmt.nested, Stmt.outline, Expr.text_nested condition, Stmt.text_nested onTrue,
        Stmt.text_nested onFalse]
  | .whileLoop condition body => by
      simp [Stmt.nested, Stmt.outline, Expr.text_nested condition, Stmt.text_nested body]
  | .function declaration => FunctionDecl.text_nested declaration
  | .classDecl _ none methods => by
      simp [Stmt.nested, Stmt.outline, FunctionDecl.map_text_nestedAll methods]
  | .classDecl _ (some superclass) methods => by
      have habove : "< " ++ superclass.name.lexeme = "<" ++ " " ++ superclass.name.lexeme := rfl
      rw [Stmt.outline, habove, outlineList_append]
      simp [Stmt.nested, text, FunctionDecl.map_text_nestedAll methods]

theorem Stmt.map_text_nestedAll : ∀ ss : List Stmt,
    (Stmt.nestedAll ss).map text = Stmt.outlines ss
  | [] => rfl
  | s :: rest => by
      rw [Stmt.nestedAll, Stmt.outlines, List.map_cons, Stmt.text_nested s,
        Stmt.map_text_nestedAll rest]

theorem FunctionDecl.text_nested : ∀ f : FunctionDecl, f.nested.text = f.outline
  | ⟨_, params, body⟩ => by
      simp [FunctionDecl.nested, FunctionDecl.outline, text, texts_eq_map,
        Stmt.map_text_nestedAll body]

theorem FunctionDecl.map_text_nestedAll : ∀ fs : List FunctionDecl,
    (FunctionDecl.nestedAll fs).map text = FunctionDecl.outlines fs
  | [] => rfl
  | f :: rest => by
      rw [FunctionDecl.nestedAll, FunctionDecl.outlines, List.map_cons, FunctionDecl.text_nested f,
        FunctionDecl.map_text_nestedAll rest]

end

/-- The outline of a program is a line for each of its statements. -/
theorem toList_outlineProgram (program : List Stmt) :
    (outlineProgram program).toList
      = (Stmt.nestedAll program).flatMap fun t => t.text.toList ++ ['\n'] := by
  rw [outlineProgram, ← Stmt.map_text_nestedAll, String.toList_join]
  simp [List.flatMap_map, Function.comp_def]

end Lox
