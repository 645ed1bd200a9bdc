/-
The translation and other labels.

Nothing that is written for a tree depends on the numbers and the lines in it.
-/
import Lox.Proofs.Syntax.Relabelling
import Lox.Scheme.Program

namespace Lox.Scheme

variable {f l : Nat → Nat}

/-! ### Names -/

@[simp] theorem symbol_reline (name : Token) : symbol (name.reline l) = symbol name :=
  rfl

@[simp] theorem datum_reline (name : Token) : datum (name.reline l) = datum name :=
  rfl

@[simp] theorem operatorName_reline (operator : Token) :
    operatorName (operator.reline l) = operatorName operator :=
  rfl

@[simp] theorem openBinding_reline (name : Token) (d : Draft) :
    openBinding (name.reline l) d = openBinding name d :=
  rfl

theorem map_symbol_reline (params : List Token) :
    (params.map (Token.reline l)).map symbol = params.map symbol := by
  rw [List.map_map]
  rfl

/-! ### Trees -/

mutual

theorem ofExpr_relabel : ∀ e : Expr, ofExpr (e.relabel f l) = ofExpr e
  | .literal _ | .use _ | .this _ | .super _ _ => rfl
  | .group inner => ofExpr_relabel inner
  | .get inner _ | .unary _ inner | .assign _ inner => by
      simp only [Expr.relabel, ofExpr, ofExpr_relabel inner, Occurrence.relabel_name,
        Token.reline_kind, symbol_reline, datum_reline]
  | .binary _ left right | .logical _ left right | .set left _ right => by
      simp only [Expr.relabel, ofExpr, ofExpr_relabel left, ofExpr_relabel right,
        Token.reline_lexeme, operatorName_reline, datum_reline]
  | .conditional condition onTrue onFalse => by
      simp only [Expr.relabel, ofExpr, ofExpr_relabel condition, ofExpr_relabel onTrue,
        ofExpr_relabel onFalse]
  | .call callee _ arguments => by
      simp only [Expr.relabel, ofExpr, ofExpr_relabel callee, ofExprs_relabel arguments]

theorem ofExprs_relabel : ∀ row : List Expr, ofExprs (Expr.relabelAll f l row) = ofExprs row
  | [] => rfl
  | e :: rest => by
      simp only [Expr.relabelAll, ofExprs, ofExpr_relabel e, ofExprs_relabel rest]

end

@[simp] theorem ofExpr?_relabel (value : Option Expr) :
    ofExpr? (value.map (Expr.relabel f l)) = ofExpr? value := by
  cases value with
  | none => rfl
  | some e => exact ofExpr_relabel e

theorem isEmpty_relabelAll (body : List Stmt) :
    (Stmt.relabelAll f l body).isEmpty = body.isEmpty := by
  cases body <;> rfl

mutual

theorem ofStmt_relabel : ∀ (s : Stmt) (d : Draft), ofStmt (s.relabel f l) d = ofStmt s d
  | .expression value, d | .print _ value, d => by
      simp only [Stmt.relabel, ofStmt, ofExpr_relabel]
  | .var _ value, d | .returnWith _ value, d => by
      simp only [Stmt.relabel, ofStmt, ofExpr?_relabel, symbol_reline]
  | .breakLoop _, _ => rfl
  | .block body, d => by
      simp only [Stmt.relabel, ofStmt, isEmpty_relabelAll, ofStmts_relabel body]
  | .ifElse _ onTrue none, d => by
      simp only [Stmt.relabel, ofStmt, ofExpr_relabel, ofStmt_relabel onTrue]
  | .ifElse _ onTrue (some onFalse), d => by
      simp only [Stmt.relabel, ofStmt, ofExpr_relabel, ofStmt_relabel onTrue,
        ofStmt_relabel onFalse]
  | .whileLoop _ body, d => by
      simp only [Stmt.relabel, ofStmt, ofExpr_relabel, ofStmt_relabel body]
  | .function declaration, d => by
      simp only [Stmt.relabel, ofStmt, FunctionDecl.relabel_name, openBinding_reline,
        ofFunction_relabel _ declaration]
  | .classDecl _ superclass methods, d => by
      cases superclass <;>
        simp only [Stmt.relabel, ofStmt, Option.map_none, Option.map_some,
          Occurrence.relabel_name, Token.reline_lexeme, openBinding_reline, symbol_reline,
          ofMethods_relabel methods]

theorem ofStmts_relabel : ∀ (body : List Stmt) (d : Draft),
    ofStmts (Stmt.relabelAll f l body) d = ofStmts body d
  | [], _ => rfl
  | s :: rest, d => by
      simp only [Stmt.relabelAll, ofStmts, ofStmt_relabel s, ofStmts_relabel rest]

theorem ofFunction_relabel : ∀ (isInitializer : Bool) (declaration : FunctionDecl) (d : Draft),
    ofFunction isInitializer (declaration.relabel f l) d = ofFunction isInitializer declaration d
  | _, ⟨_, _, body⟩, d => by
      simp only [FunctionDecl.relabel, ofFunction, isEmpty_relabelAll, ofStmts_relabel body,
        Token.reline_lexeme, map_symbol_reline]

theorem ofMethods_relabel : ∀ (methods : List FunctionDecl) (d : Draft),
    ofMethods (FunctionDecl.relabelAll f l methods) d = ofMethods methods d
  | [], _ => rfl
  | method :: rest, d => by
      simp only [FunctionDecl.relabelAll, ofMethods, FunctionDecl.relabel_name,
        Token.reline_lexeme, datum_reline, ofFunction_relabel _ method, ofMethods_relabel rest]

end

theorem ofTopLevel_relabel (body : List Stmt) (d : Draft) :
    ofTopLevel (body.map (Stmt.relabel f l)) d = ofTopLevel body d := by
  induction body generalizing d with
  | nil => rfl
  | cons s rest ih => simp only [List.map_cons, ofTopLevel, ofStmt_relabel, ih]

/-- The same program is written whatever the labels are. -/
theorem program_relabel (statements : List Stmt) :
    program (statements.map (Stmt.relabel f l)) = program statements := by
  unfold program
  rw [ofTopLevel_relabel]

theorem prettyProgram_relabel (statements : List Stmt) :
    prettyProgram (statements.map (Stmt.relabel f l)) = prettyProgram statements := by
  unfold prettyProgram
  rw [program_relabel]

end Lox.Scheme
