/-
Trees with other numbers.

`renumber f` gives the occurrence with the number `n` the number `f n` and leaves
everything else of a tree as it is, the lines too.
-/
import Lox.Proofs.Syntax.Relabelling

namespace Lox

variable (f : Nat → Nat)

/-! ### Other numbers -/

/-- The same mention of a name with another number. -/
def Occurrence.renumber (occurrence : Occurrence) : Occurrence :=
  ⟨occurrence.name, f occurrence.id⟩

mutual

/-- An expression with other numbers. -/
def Expr.renumber : Expr → Expr
  | .literal value => .literal value
  | .group inner => .group inner.renumber
  | .unary operator operand => .unary operator operand.renumber
  | .binary operator left right => .binary operator left.renumber right.renumber
  | .logical operator left right => .logical operator left.renumber right.renumber
  | .conditional condition onTrue onFalse =>
      .conditional condition.renumber onTrue.renumber onFalse.renumber
  | .use occurrence => .use (occurrence.renumber f)
  | .assign target value => .assign (target.renumber f) value.renumber
  | .call callee paren arguments =>
      .call callee.renumber paren (Expr.renumberAll arguments)
  | .get object property => .get object.renumber property
  | .set object property value => .set object.renumber property value.renumber
  | .this receiver => .this (receiver.renumber f)
  | .super keyword method => .super (keyword.renumber f) method

/-- Several expressions with other numbers. -/
def Expr.renumberAll : List Expr → List Expr
  | [] => []
  | e :: rest => e.renumber :: Expr.renumberAll rest

end

mutual

/-- A statement with other numbers. -/
def Stmt.renumber : Stmt → Stmt
  | .expression value => .expression (value.renumber f)
  | .print keyword value => .print keyword (value.renumber f)
  | .var name initializer => .var name (initializer.map (Expr.renumber f))
  | .block body => .block (Stmt.renumberAll body)
  | .ifElse condition onTrue none => .ifElse (condition.renumber f) onTrue.renumber none
  | .ifElse condition onTrue (some onFalse) =>
      .ifElse (condition.renumber f) onTrue.renumber (some onFalse.renumber)
  | .whileLoop condition body => .whileLoop (condition.renumber f) body.renumber
  | .breakLoop keyword => .breakLoop keyword
  | .function declaration => .function declaration.renumber
  | .returnWith keyword value => .returnWith keyword (value.map (Expr.renumber f))
  | .classDecl name superclass methods =>
      .classDecl name (superclass.map (Occurrence.renumber f)) (FunctionDecl.renumberAll methods)

/-- Several statements with other numbers. -/
def Stmt.renumberAll : List Stmt → List Stmt
  | [] => []
  | s :: rest => s.renumber :: Stmt.renumberAll rest

/-- A function with other numbers. -/
def FunctionDecl.renumber : FunctionDecl → FunctionDecl
  | ⟨name, params, body⟩ => ⟨name, params, Stmt.renumberAll body⟩

/-- Several functions with other numbers. -/
def FunctionDecl.renumberAll : List FunctionDecl → List FunctionDecl
  | [] => []
  | declaration :: rest => declaration.renumber :: FunctionDecl.renumberAll rest

end

variable {f}

/-! ### Numbers and other labels

To renumber a tree is to leave all lines as they are.
-/

mutual

theorem Expr.renumber_eq_relabel : ∀ e : Expr, e.renumber f = e.relabel f id
  | .literal _ | .use _ | .this _ | .super _ _ => rfl
  | .group inner | .get inner _ | .unary _ inner => by
      simp only [renumber, relabel, Token.reline_by_id, Expr.renumber_eq_relabel inner]
  | .assign _ value => by
      simp only [renumber, relabel, Expr.renumber_eq_relabel value]
      rfl
  | .binary _ left right | .logical _ left right | .set left _ right => by
      simp only [renumber, relabel, Token.reline_by_id, Expr.renumber_eq_relabel left,
        Expr.renumber_eq_relabel right]
  | .conditional condition onTrue onFalse => by
      simp only [renumber, relabel, Expr.renumber_eq_relabel condition,
        Expr.renumber_eq_relabel onTrue, Expr.renumber_eq_relabel onFalse]
  | .call callee _ arguments => by
      simp only [renumber, relabel, Token.reline_by_id, Expr.renumber_eq_relabel callee,
        Expr.renumberAll_eq_relabelAll arguments]

theorem Expr.renumberAll_eq_relabelAll : ∀ row : List Expr,
    Expr.renumberAll f row = Expr.relabelAll f id row
  | [] => rfl
  | e :: rest => by
      rw [renumberAll, relabelAll, Expr.renumber_eq_relabel e,
        Expr.renumberAll_eq_relabelAll rest]

end

mutual

theorem Stmt.renumber_eq_relabel : ∀ s : Stmt, s.renumber f = s.relabel f id
  | .expression value | .print _ value => by
      simp only [Stmt.renumber, Stmt.relabel, Token.reline_by_id, Expr.renumber_eq_relabel value]
  | .var _ none | .breakLoop _ | .returnWith _ none => rfl
  | .var _ (some value) | .returnWith _ (some value) => by
      simp only [Stmt.renumber, Stmt.relabel, Option.map_some, Token.reline_by_id,
        Expr.renumber_eq_relabel value]
  | .block body => by
      rw [Stmt.renumber, Stmt.relabel, Stmt.renumberAll_eq_relabelAll body]
  | .ifElse condition onTrue none => by
      rw [Stmt.renumber, Stmt.relabel, Expr.renumber_eq_relabel condition,
        Stmt.renumber_eq_relabel onTrue]
  | .ifElse condition onTrue (some onFalse) => by
      rw [Stmt.renumber, Stmt.relabel, Expr.renumber_eq_relabel condition,
        Stmt.renumber_eq_relabel onTrue, Stmt.renumber_eq_relabel onFalse]
  | .whileLoop condition body => by
      rw [Stmt.renumber, Stmt.relabel, Expr.renumber_eq_relabel condition,
        Stmt.renumber_eq_relabel body]
  | .function declaration => by
      rw [Stmt.renumber, Stmt.relabel, FunctionDecl.renumber_eq_relabel declaration]
  | .classDecl _ superclass methods => by
      rw [Stmt.renumber, Stmt.relabel, FunctionDecl.renumberAll_eq_relabelAll methods]
      cases superclass <;> rfl

theorem Stmt.renumberAll_eq_relabelAll : ∀ body : List Stmt,
    Stmt.renumberAll f body = Stmt.relabelAll f id body
  | [] => rfl
  | s :: rest => by
      rw [Stmt.renumberAll, Stmt.relabelAll, Stmt.renumber_eq_relabel s,
        Stmt.renumberAll_eq_relabelAll rest]

theorem FunctionDecl.renumber_eq_relabel : ∀ declaration : FunctionDecl,
    declaration.renumber f = declaration.relabel f id
  | ⟨_, params, body⟩ => by
      rw [FunctionDecl.renumber, FunctionDecl.relabel, Stmt.renumberAll_eq_relabelAll body,
        Token.map_reline_by_id, Token.reline_by_id]

theorem FunctionDecl.renumberAll_eq_relabelAll : ∀ row : List FunctionDecl,
    FunctionDecl.renumberAll f row = FunctionDecl.relabelAll f id row
  | [] => rfl
  | declaration :: rest => by
      rw [FunctionDecl.renumberAll, FunctionDecl.relabelAll,
        FunctionDecl.renumber_eq_relabel declaration,
        FunctionDecl.renumberAll_eq_relabelAll rest]

end

end Lox
