/-
Programs whose names are resolved.

A place in a program lies in scopes, and an occurrence at that place is resolved if the
table of distances says of it what its name says in these scopes.  A part of a program is
resolved if all of its occurrences are, each in the scopes of its own place; the scopes
change on the way as the declarations do, and in no other way.

Being resolved is about more than distances.  Where a declaration stands its name is
new to the innermost scope, no variable is read while it is being initialized, and
around a `super` there are the two scopes that binding a method will open.
-/
import Lox.Proofs.Scope.Scopes
import Lox.Proofs.Syntax.Trees
import Lox.Scope.Locals

namespace Lox.Scope

/-! ### Occurrences -/

/-- The distances of all occurrences so far, and the number of the latest one. -/
structure Resolution where
  locals : Locals
  lastId : Nat

namespace Resolution

/-- At a place in these scopes, an occurrence refers to what its name refers to. -/
structure Refers (r : Resolution) (scopes : Scopes) (occurrence : Occurrence) : Prop where
  known : occurrence.id ≤ r.lastId
  distance : r.locals[occurrence.id]? = scopes.distance? occurrence.name.lexeme

/-- More occurrences were resolved, and nothing was changed about the earlier ones. -/
structure Extends (r r' : Resolution) : Prop where
  lastId : r.lastId ≤ r'.lastId
  locals : ∀ id, id ≤ r.lastId → r'.locals[id]? = r.locals[id]?

theorem Extends.refl (r : Resolution) : r.Extends r :=
  ⟨Nat.le_refl _, fun _ _ => rfl⟩

theorem Extends.trans {r r' r'' : Resolution} (h : r.Extends r') (h' : r'.Extends r'') :
    r.Extends r'' :=
  ⟨Nat.le_trans h.lastId h'.lastId, fun id hid =>
    (h'.locals id (Nat.le_trans hid h.lastId)).trans (h.locals id hid)⟩

theorem Refers.extend {r r' : Resolution} {scopes : Scopes} {occurrence : Occurrence}
    (h : r.Refers scopes occurrence) (hext : r.Extends r') : r'.Refers scopes occurrence :=
  ⟨Nat.le_trans h.known hext.lastId, (hext.locals _ h.known).trans h.distance⟩

end Resolution

/-! ### Expressions -/

/-- Every occurrence in an expression is resolved. -/
inductive ResolvedExpr (r : Resolution) (scopes : Scopes) : Expr → Prop
  | literal {value : Literal} : ResolvedExpr r scopes (.literal value)
  | group {inner : Expr} (h : ResolvedExpr r scopes inner) : ResolvedExpr r scopes (.group inner)
  | unary {operator : Token} {operand : Expr} (h : ResolvedExpr r scopes operand) :
      ResolvedExpr r scopes (.unary operator operand)
  | binary {operator : Token} {left right : Expr} (hleft : ResolvedExpr r scopes left)
      (hright : ResolvedExpr r scopes right) :
      ResolvedExpr r scopes (.binary operator left right)
  | logical {operator : Token} {left right : Expr} (hleft : ResolvedExpr r scopes left)
      (hright : ResolvedExpr r scopes right) :
      ResolvedExpr r scopes (.logical operator left right)
  | conditional {condition onTrue onFalse : Expr} (hcondition : ResolvedExpr r scopes condition)
      (hTrue : ResolvedExpr r scopes onTrue) (hFalse : ResolvedExpr r scopes onFalse) :
      ResolvedExpr r scopes (.conditional condition onTrue onFalse)
  | use {occurrence : Occurrence} (h : r.Refers scopes occurrence)
      (hname : Ordinary occurrence.name.lexeme)
      (hread : scopes.isInitializing occurrence.name.lexeme = false) :
      ResolvedExpr r scopes (.use occurrence)
  | assign {target : Occurrence} {value : Expr} (h : r.Refers scopes target)
      (hname : Ordinary target.name.lexeme) (hvalue : ResolvedExpr r scopes value) :
      ResolvedExpr r scopes (.assign target value)
  | call {callee : Expr} {paren : Token} {arguments : List Expr}
      (hcallee : ResolvedExpr r scopes callee)
      (harguments : ∀ e ∈ arguments, ResolvedExpr r scopes e) :
      ResolvedExpr r scopes (.call callee paren arguments)
  | get {object : Expr} {property : Token} (h : ResolvedExpr r scopes object) :
      ResolvedExpr r scopes (.get object property)
  | set {object : Expr} {property : Token} {value : Expr}
      (hobject : ResolvedExpr r scopes object) (hvalue : ResolvedExpr r scopes value) :
      ResolvedExpr r scopes (.set object property value)
  | this {receiver : Occurrence} {distance : Nat} (hname : receiver.name.lexeme = "this")
      (h : r.Refers scopes receiver) (hthis : scopes.distance? "this" = some distance) :
      ResolvedExpr r scopes (.this receiver)
  | super {keyword : Occurrence} {method : Token} {distance : Nat}
      (hname : keyword.name.lexeme = "super") (h : r.Refers scopes keyword)
      (hthis : scopes.distance? "this" = some distance)
      (hsuper : scopes.distance? "super" = some (distance + 1)) :
      ResolvedExpr r scopes (.super keyword method)

/-! ### Statements -/

/-- A name that the innermost scope does not declare yet. -/
def Scopes.IsNew (scopes : Scopes) (name : Token) : Prop :=
  scopes.declaresInnermost name.lexeme = false ∧ Ordinary name.lexeme

/-- The scopes behind a statement. -/
def Scopes.declare (scopes : Scopes) : Stmt → Scopes
  | .var name _ => scopes.mark name.lexeme true
  | .function declaration => scopes.mark declaration.name.lexeme true
  | .classDecl name _ _ => scopes.mark name.lexeme true
  | _ => scopes

theorem Scopes.declare_of_nested (scopes : Scopes) {s : Stmt} (h : s.isDeclaration = false) :
    scopes.declare s = scopes := by
  cases s <;> first | rfl | simp [Stmt.isDeclaration] at h

theorem Scopes.Settled.declare {scopes : Scopes} (h : scopes.Settled) (s : Stmt) :
    (scopes.declare s).Settled := by
  unfold Scopes.declare
  split
  · exact h.mark _
  · exact h.mark _
  · exact h.mark _
  · exact h

/-- The scope that binding a method opens. -/
def thisNames : Names := [("this", true)]

/-- The scope that a superclass opens around the methods of a class. -/
def superNames : Names := [("super", true)]

/-- The scopes in which the methods of a class are declared; the scope that binds `this`
comes on top of them. -/
def methodScopes (scopes : Scopes) (superclass : Option Occurrence) : Scopes :=
  match superclass with
  | none => scopes
  | some _ => superNames :: scopes

mutual

/-- Every occurrence in a statement is resolved. -/
inductive ResolvedStmt (r : Resolution) : Scopes → Stmt → Prop
  | expression {scopes : Scopes} {value : Expr} (h : ResolvedExpr r scopes value) :
      ResolvedStmt r scopes (.expression value)
  | print {scopes : Scopes} {keyword : Token} {value : Expr} (h : ResolvedExpr r scopes value) :
      ResolvedStmt r scopes (.print keyword value)
  | var {scopes : Scopes} {name : Token} {initializer : Option Expr} (hnew : scopes.IsNew name)
      (h : ∀ value ∈ initializer, ResolvedExpr r (scopes.mark name.lexeme false) value) :
      ResolvedStmt r scopes (.var name initializer)
  | block {scopes : Scopes} {body : List Stmt} (h : ResolvedStmts r ([] :: scopes) body) :
      ResolvedStmt r scopes (.block body)
  | ifElse {scopes : Scopes} {condition : Expr} {onTrue : Stmt} {onFalse : Option Stmt}
      (hcondition : ResolvedExpr r scopes condition) (hTrue : ResolvedStmt r scopes onTrue)
      (hnested : onTrue.isDeclaration = false)
      (hFalse : ∀ s ∈ onFalse, ResolvedStmt r scopes s)
      (hnested' : ∀ s ∈ onFalse, s.isDeclaration = false) :
      ResolvedStmt r scopes (.ifElse condition onTrue onFalse)
  | whileLoop {scopes : Scopes} {condition : Expr} {body : Stmt}
      (hcondition : ResolvedExpr r scopes condition) (hbody : ResolvedStmt r scopes body)
      (hnested : body.isDeclaration = false) : ResolvedStmt r scopes (.whileLoop condition body)
  | breakLoop {scopes : Scopes} {keyword : Token} : ResolvedStmt r scopes (.breakLoop keyword)
  | returnWith {scopes : Scopes} {keyword : Token} {value : Option Expr}
      (h : ∀ e ∈ value, ResolvedExpr r scopes e) : ResolvedStmt r scopes (.returnWith keyword value)
  | function {scopes : Scopes} {declaration : FunctionDecl} (hnew : scopes.IsNew declaration.name)
      (h : ResolvedFunction r (scopes.mark declaration.name.lexeme true) declaration) :
      ResolvedStmt r scopes (.function declaration)
  | classDecl {scopes : Scopes} {name : Token} {superclass : Option Occurrence}
      {methods : List FunctionDecl} (hnew : scopes.IsNew name)
      (habove : ∀ occurrence ∈ superclass,
        ResolvedExpr r (scopes.mark name.lexeme true) (.use occurrence))
      (hmethods : ∀ f ∈ methods, ResolvedFunction r
        (thisNames :: methodScopes (scopes.mark name.lexeme true) superclass) f) :
      ResolvedStmt r scopes (.classDecl name superclass methods)

/-- Each statement is resolved in the scopes behind the one before it. -/
inductive ResolvedStmts (r : Resolution) : Scopes → List Stmt → Prop
  | nil {scopes : Scopes} : ResolvedStmts r scopes []
  | cons {scopes : Scopes} {s : Stmt} {rest : List Stmt} (h : ResolvedStmt r scopes s)
      (hrest : ResolvedStmts r (scopes.declare s) rest) : ResolvedStmts r scopes (s :: rest)

/-- The parameters of a function are distinct, and its body is resolved in their scope. -/
inductive ResolvedFunction (r : Resolution) : Scopes → FunctionDecl → Prop
  | mk {scopes : Scopes} {name : Token} {params : List Token} {body : List Stmt}
      (hdistinct : (params.map Token.lexeme).Nodup)
      (hparams : ∀ param ∈ params, Ordinary param.lexeme)
      (hbody : ResolvedStmts r (paramNames params :: scopes) body) :
      ResolvedFunction r scopes ⟨name, params, body⟩

end

/-! ### More resolved occurrences leave the earlier ones resolved -/

section Extends

variable {r r' : Resolution}

theorem ResolvedExpr.extend (hext : r.Extends r') {scopes : Scopes} {e : Expr}
    (h : ResolvedExpr r scopes e) : ResolvedExpr r' scopes e := by
  induction h with
  | literal => exact .literal
  | group _ ih => exact .group ih
  | unary _ ih => exact .unary ih
  | binary _ _ ihleft ihright => exact .binary ihleft ihright
  | logical _ _ ihleft ihright => exact .logical ihleft ihright
  | conditional _ _ _ ihcondition ihTrue ihFalse => exact .conditional ihcondition ihTrue ihFalse
  | use h hname hread => exact .use (h.extend hext) hname hread
  | assign h hname _ ih => exact .assign (h.extend hext) hname ih
  | call _ _ ihcallee iharguments => exact .call ihcallee iharguments
  | get _ ih => exact .get ih
  | set _ _ ihobject ihvalue => exact .set ihobject ihvalue
  | this hname h hthis => exact .this hname (h.extend hext) hthis
  | super hname h hthis hsuper => exact .super hname (h.extend hext) hthis hsuper

mutual

theorem ResolvedStmt.extend (hext : r.Extends r') {scopes : Scopes} {s : Stmt}
    (h : ResolvedStmt r scopes s) : ResolvedStmt r' scopes s :=
  match h with
  | .expression h => .expression (h.extend hext)
  | .print h => .print (h.extend hext)
  | .var hnew h => .var hnew fun value hvalue => (h value hvalue).extend hext
  | .block h => .block (h.extend hext)
  | .ifElse hcondition hTrue hnested hFalse hnested' =>
      .ifElse (hcondition.extend hext) (hTrue.extend hext) hnested
        (fun s hs => (hFalse s hs).extend hext) hnested'
  | .whileLoop hcondition hbody hnested =>
      .whileLoop (hcondition.extend hext) (hbody.extend hext) hnested
  | .breakLoop => .breakLoop
  | .returnWith h => .returnWith fun e he => (h e he).extend hext
  | .function hnew h => .function hnew (h.extend hext)
  | .classDecl hnew habove hmethods =>
      .classDecl hnew (fun o ho => (habove o ho).extend hext)
        (fun f hf => (hmethods f hf).extend hext)

theorem ResolvedStmts.extend (hext : r.Extends r') {scopes : Scopes} {body : List Stmt}
    (h : ResolvedStmts r scopes body) : ResolvedStmts r' scopes body :=
  match h with
  | .nil => .nil
  | .cons h hrest => .cons (h.extend hext) (hrest.extend hext)

theorem ResolvedFunction.extend (hext : r.Extends r') {scopes : Scopes} {f : FunctionDecl}
    (h : ResolvedFunction r scopes f) : ResolvedFunction r' scopes f :=
  match h with
  | .mk hdistinct hparams hbody => .mk hdistinct hparams (hbody.extend hext)

end

end Extends

end Lox.Scope
