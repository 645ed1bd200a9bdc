/-
The analysis and other labels.

The analysis notes the number of an occurrence beside its distance and the line of a token
in a fault, and never looks at them.  So it finds the same faults in a program with other
labels, on the other lines, and the same distances for the other numbers.
-/
import Lox.Proofs.Syntax.Relabelling
import Lox.Scope.Analysis

namespace Lox.Scope

variable {f l : Nat → Nat}

/-- The same findings about a program with other labels. -/
def Findings.relabel (f l : Nat → Nat) (found : Findings) : Findings :=
  ⟨found.locals.map (Prod.map f id), found.faults.map (Fault.reline l)⟩

namespace Findings

@[simp] theorem relabel_nothing : nothing.relabel f l = nothing :=
  rfl

@[simp] theorem relabel_append (a b : Findings) :
    (a ++ b).relabel f l = a.relabel f l ++ b.relabel f l := by
  show Findings.mk _ _ = Findings.mk _ _
  rw [append_locals, append_faults, List.map_append, List.map_append]
  rfl

@[simp] theorem relabel_faultIf (condition : Bool) (token : Token) (cause : Fault.Cause) :
    (faultIf condition token cause).relabel f l = faultIf condition (token.reline l) cause := by
  cases condition <;> rfl

@[simp] theorem relabel_local? (scopes : Scopes) (name : String) (id : Nat) :
    (local? scopes name id).relabel f l = local? scopes name (f id) := by
  unfold local?
  split <;> rfl

end Findings

/-! ### Expressions -/

mutual

theorem ofExpr_relabel (context : Context) (scopes : Scopes) : ∀ e : Expr,
    ofExpr context scopes (e.relabel f l) = (ofExpr context scopes e).relabel f l
  | .literal _ => rfl
  | .group inner | .get inner _ | .unary _ inner => ofExpr_relabel context scopes inner
  | .binary _ left right | .logical _ left right => by
      simp only [Expr.relabel, ofExpr, Findings.relabel_append,
        ofExpr_relabel context scopes left, ofExpr_relabel context scopes right]
  | .conditional condition onTrue onFalse => by
      simp only [Expr.relabel, ofExpr, Findings.relabel_append,
        ofExpr_relabel context scopes condition, ofExpr_relabel context scopes onTrue,
        ofExpr_relabel context scopes onFalse]
  | .use occurrence => by
      simp only [Expr.relabel, ofExpr, Findings.relabel_append, Findings.relabel_faultIf,
        Findings.relabel_local?, Occurrence.relabel_name, Occurrence.relabel_id,
        Token.reline_lexeme]
  | .assign target value => by
      simp only [Expr.relabel, ofExpr, Findings.relabel_append, Findings.relabel_local?,
        Occurrence.relabel_name, Occurrence.relabel_id, Token.reline_lexeme,
        ofExpr_relabel context scopes value]
  | .call callee _ arguments => by
      simp only [Expr.relabel, ofExpr, Findings.relabel_append,
        ofExpr_relabel context scopes callee, ofExprs_relabel context scopes arguments]
  | .set object _ value => by
      simp only [Expr.relabel, ofExpr, Findings.relabel_append,
        ofExpr_relabel context scopes object, ofExpr_relabel context scopes value]
  | .this receiver => by
      simp only [Expr.relabel, ofExpr, Occurrence.relabel_name, Occurrence.relabel_id]
      split
      · rw [Findings.relabel_faultIf]
      · rw [Findings.relabel_local?]
  | .super keyword _ => by
      simp only [Expr.relabel, ofExpr, Findings.relabel_append, Findings.relabel_faultIf,
        Findings.relabel_local?, Occurrence.relabel_name, Occurrence.relabel_id]

theorem ofExprs_relabel (context : Context) (scopes : Scopes) : ∀ row : List Expr,
    ofExprs context scopes (Expr.relabelAll f l row) = (ofExprs context scopes row).relabel f l
  | [] => rfl
  | e :: rest => by
      simp only [Expr.relabelAll, ofExprs, Findings.relabel_append,
        ofExpr_relabel context scopes e, ofExprs_relabel context scopes rest]

end

/-! ### Statements -/

@[simp] theorem redeclared_relabel (scopes : Scopes) (name : Token) :
    (redeclared scopes name).relabel f l = redeclared scopes (name.reline l) :=
  Findings.relabel_faultIf _ _ _

@[simp] theorem ofParams_relabel (scopes : Scopes) (params : List Token) :
    (ofParams scopes params).2.relabel f l
      = (ofParams scopes (params.map (Token.reline l))).2 := by
  induction params generalizing scopes with
  | nil => rfl
  | cons param rest ih =>
      simp only [List.map_cons, ofParams, Findings.relabel_append, redeclared_relabel,
        Token.reline_lexeme, ih]

@[simp] theorem ofParams_relabel_scopes (scopes : Scopes) (params : List Token) :
    (ofParams scopes (params.map (Token.reline l))).1 = (ofParams scopes params).1 := by
  induction params generalizing scopes with
  | nil => rfl
  | cons param rest ih => simp only [List.map_cons, ofParams, Token.reline_lexeme, ih]

@[simp] theorem classScopes_relabel (scopes : Scopes) (superclass : Option Occurrence) :
    classScopes scopes (superclass.map (Occurrence.relabel f l))
      = classScopes scopes superclass := by
  cases superclass <;> rfl

@[simp] theorem ofSuperclass_relabel (context : Context) (scopes : Scopes) (name : Token)
    (superclass : Option Occurrence) :
    ofSuperclass context scopes (name.reline l) (superclass.map (Occurrence.relabel f l))
      = (ofSuperclass context scopes name superclass).relabel f l := by
  cases superclass with
  | none => rfl
  | some occurrence =>
      have huse := ofExpr_relabel (f := f) (l := l) context scopes (.use occurrence)
      rw [Expr.relabel] at huse
      unfold ofSuperclass
      rw [Option.map_some]
      dsimp only
      rw [huse, Findings.relabel_append, Findings.relabel_faultIf]
      rfl

mutual

theorem ofStmt_relabel : ∀ (context : Context) (scopes : Scopes) (s : Stmt),
    ofStmt context scopes (s.relabel f l)
      = ((ofStmt context scopes s).1, (ofStmt context scopes s).2.relabel f l)
  | context, scopes, .expression value | context, scopes, .print _ value => by
      simp only [Stmt.relabel, ofStmt, ofExpr_relabel]
  | context, scopes, .var name none => by
      simp only [Stmt.relabel, Option.map_none, ofStmt, redeclared_relabel, Token.reline_lexeme]
  | context, scopes, .var name (some value) => by
      simp only [Stmt.relabel, Option.map_some, ofStmt, Findings.relabel_append,
        redeclared_relabel, Token.reline_lexeme, ofExpr_relabel]
  | context, scopes, .block body => by
      simp only [Stmt.relabel, ofStmt, ofStmts_relabel context ([] :: scopes) body]
  | context, scopes, .ifElse condition onTrue none => by
      simp only [Stmt.relabel, ofStmt, Findings.relabel_append, ofExpr_relabel,
        ofStmt_relabel context scopes onTrue]
  | context, scopes, .ifElse condition onTrue (some onFalse) => by
      simp only [Stmt.relabel, ofStmt, Findings.relabel_append, ofExpr_relabel,
        ofStmt_relabel context scopes onTrue, ofStmt_relabel context _ onFalse]
  | context, scopes, .whileLoop condition body => by
      simp only [Stmt.relabel, ofStmt, Findings.relabel_append, ofExpr_relabel,
        ofStmt_relabel _ scopes body]
  | context, scopes, .breakLoop keyword => by
      simp only [Stmt.relabel, ofStmt, Findings.relabel_faultIf]
  | context, scopes, .returnWith keyword none => by
      simp only [Stmt.relabel, Option.map_none, ofStmt, Findings.relabel_faultIf]
  | context, scopes, .returnWith keyword (some value) => by
      simp only [Stmt.relabel, Option.map_some, ofStmt, Findings.relabel_append,
        Findings.relabel_faultIf, ofExpr_relabel]
  | context, scopes, .function declaration => by
      simp only [Stmt.relabel, ofStmt, FunctionDecl.relabel_name, Findings.relabel_append,
        redeclared_relabel, Token.reline_lexeme, ofFunction_relabel _ _ declaration]
  | context, scopes, .classDecl name superclass methods => by
      simp only [Stmt.relabel, ofStmt, Option.isSome_map, classScopes_relabel,
        ofSuperclass_relabel, Findings.relabel_append, redeclared_relabel, Token.reline_lexeme,
        ofMethods_relabel _ _ methods]

theorem ofStmts_relabel : ∀ (context : Context) (scopes : Scopes) (body : List Stmt),
    ofStmts context scopes (Stmt.relabelAll f l body) = (ofStmts context scopes body).relabel f l
  | _, _, [] => rfl
  | context, scopes, s :: rest => by
      simp only [Stmt.relabelAll, ofStmts, Findings.relabel_append,
        ofStmt_relabel context scopes s, ofStmts_relabel context _ rest]

theorem ofFunction_relabel : ∀ (context : Context) (scopes : Scopes)
    (declaration : FunctionDecl),
    ofFunction context scopes (declaration.relabel f l)
      = (ofFunction context scopes declaration).relabel f l
  | context, scopes, ⟨_, params, body⟩ => by
      simp only [FunctionDecl.relabel, ofFunction, Findings.relabel_append, ofParams_relabel,
        ofParams_relabel_scopes, ofStmts_relabel context _ body]

theorem ofMethods_relabel : ∀ (context : Context) (scopes : Scopes)
    (methods : List FunctionDecl),
    ofMethods context scopes (FunctionDecl.relabelAll f l methods)
      = (ofMethods context scopes methods).relabel f l
  | _, _, [] => rfl
  | context, scopes, method :: rest => by
      simp only [FunctionDecl.relabelAll, ofMethods, Findings.relabel_append,
        FunctionDecl.relabel_name, Token.reline_lexeme, ofFunction_relabel _ scopes method,
        ofMethods_relabel context scopes rest]

end

/-- A program with other labels has the same faults, and the same distances. -/
theorem analyse_relabel (program : List Stmt) :
    analyse (program.map (Stmt.relabel f l)) = (analyse program).relabel f l := by
  rw [← Stmt.relabelAll_eq_map]
  exact ofStmts_relabel .topLevel [] program

end Lox.Scope
