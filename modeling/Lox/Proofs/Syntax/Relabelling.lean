/-
Trees with other numbers and other lines.

The number of an occurrence is there to tell it apart from the others, and the line of a
token is there for messages; what they are does not matter otherwise.  `relabel f l` gives
the occurrence with the number `n` the number `f n` and the token on line `k` the line
`l k`, and leaves everything else of a tree as it is.
-/
import Lox.Fault
import Lox.Proofs.Syntax.Trees
import Lox.Value.Failure

namespace Lox

/-! ### Tokens on other lines -/

namespace Token

/-- The same word on another line. -/
def reline (l : Nat → Nat) (token : Token) : Token :=
  { token with line := l token.line }

variable {k l : Nat → Nat}

@[simp] theorem reline_kind (token : Token) : (token.reline l).kind = token.kind :=
  rfl

@[simp] theorem reline_lexeme (token : Token) : (token.reline l).lexeme = token.lexeme :=
  rfl

@[simp] theorem reline_line (token : Token) : (token.reline l).line = l token.line :=
  rfl

@[simp] theorem literal?_reline (token : Token) : (token.reline l).literal? = token.literal? :=
  rfl

@[simp] theorem reline_by_id (token : Token) : token.reline id = token :=
  rfl

theorem reline_reline (token : Token) : (token.reline k).reline l = token.reline (l ∘ k) :=
  rfl

@[simp] theorem map_reline_by_id (row : List Token) : row.map (reline id) = row :=
  List.map_id row

theorem map_reline_map_reline (row : List Token) :
    (row.map (reline k)).map (reline l) = row.map (reline (l ∘ k)) :=
  List.map_map

end Token

/-- The same defect reported on another line. -/
def Fault.reline (l : Nat → Nat) (fault : Fault) : Fault :=
  { fault with line := l fault.line }

@[simp] theorem Fault.map_reline_by_id (row : List Fault) : row.map (reline id) = row :=
  List.map_id row

/-- The same failure at a token on another line. -/
def Failure.reline (l : Nat → Nat) (failure : Failure) : Failure :=
  { failure with token := failure.token.reline l }

variable (f g k l : Nat → Nat)

/-! ### Other labels -/

/-- The same mention of a name with another number and on another line. -/
def Occurrence.relabel (occurrence : Occurrence) : Occurrence :=
  ⟨occurrence.name.reline l, f occurrence.id⟩

@[simp] theorem Occurrence.relabel_name (occurrence : Occurrence) :
    (occurrence.relabel f l).name = occurrence.name.reline l :=
  rfl

@[simp] theorem Occurrence.relabel_id (occurrence : Occurrence) :
    (occurrence.relabel f l).id = f occurrence.id :=
  rfl

mutual

/-- An expression with other labels. -/
def Expr.relabel : Expr → Expr
  | .literal value => .literal value
  | .group inner => .group inner.relabel
  | .unary operator operand => .unary (operator.reline l) operand.relabel
  | .binary operator left right => .binary (operator.reline l) left.relabel right.relabel
  | .logical operator left right => .logical (operator.reline l) left.relabel right.relabel
  | .conditional condition onTrue onFalse =>
      .conditional condition.relabel onTrue.relabel onFalse.relabel
  | .use occurrence => .use (occurrence.relabel f l)
  | .assign target value => .assign (target.relabel f l) value.relabel
  | .call callee paren arguments =>
      .call callee.relabel (paren.reline l) (Expr.relabelAll arguments)
  | .get object property => .get object.relabel (property.reline l)
  | .set object property value => .set object.relabel (property.reline l) value.relabel
  | .this receiver => .this (receiver.relabel f l)
  | .super keyword method => .super (keyword.relabel f l) (method.reline l)

/-- Several expressions with other labels. -/
def Expr.relabelAll : List Expr → List Expr
  | [] => []
  | e :: rest => e.relabel :: Expr.relabelAll rest

end

mutual

/-- A statement with other labels. -/
def Stmt.relabel : Stmt → Stmt
  | .expression value => .expression (value.relabel f l)
  | .print keyword value => .print (keyword.reline l) (value.relabel f l)
  | .var name initializer => .var (name.reline l) (initializer.map (Expr.relabel f l))
  | .block body => .block (Stmt.relabelAll body)
  | .ifElse condition onTrue none => .ifElse (condition.relabel f l) onTrue.relabel none
  | .ifElse condition onTrue (some onFalse) =>
      .ifElse (condition.relabel f l) onTrue.relabel (some onFalse.relabel)
  | .whileLoop condition body => .whileLoop (condition.relabel f l) body.relabel
  | .breakLoop keyword => .breakLoop (keyword.reline l)
  | .function declaration => .function declaration.relabel
  | .returnWith keyword value => .returnWith (keyword.reline l) (value.map (Expr.relabel f l))
  | .classDecl name superclass methods =>
      .classDecl (name.reline l) (superclass.map (Occurrence.relabel f l))
        (FunctionDecl.relabelAll methods)

/-- Several statements with other labels. -/
def Stmt.relabelAll : List Stmt → List Stmt
  | [] => []
  | s :: rest => s.relabel :: Stmt.relabelAll rest

/-- A function with other labels. -/
def FunctionDecl.relabel : FunctionDecl → FunctionDecl
  | ⟨name, params, body⟩ => ⟨name.reline l, params.map (Token.reline l), Stmt.relabelAll body⟩

/-- Several functions with other labels. -/
def FunctionDecl.relabelAll : List FunctionDecl → List FunctionDecl
  | [] => []
  | declaration :: rest => declaration.relabel :: FunctionDecl.relabelAll rest

end

variable {f g k l}

@[simp] theorem Expr.relabelAll_eq_map (row : List Expr) :
    Expr.relabelAll f l row = row.map (Expr.relabel f l) := by
  induction row with
  | nil => rfl
  | cons e rest ih => rw [relabelAll, ih, List.map_cons]

@[simp] theorem Stmt.relabelAll_eq_map (body : List Stmt) :
    Stmt.relabelAll f l body = body.map (Stmt.relabel f l) := by
  induction body with
  | nil => rfl
  | cons s rest ih => rw [relabelAll, ih, List.map_cons]

@[simp] theorem FunctionDecl.relabelAll_eq_map (row : List FunctionDecl) :
    FunctionDecl.relabelAll f l row = row.map (FunctionDecl.relabel f l) := by
  induction row with
  | nil => rfl
  | cons declaration rest ih => rw [relabelAll, ih, List.map_cons]

@[simp] theorem FunctionDecl.relabel_name (declaration : FunctionDecl) :
    (declaration.relabel f l).name = declaration.name.reline l := by
  cases declaration
  rfl

@[simp] theorem FunctionDecl.relabel_params (declaration : FunctionDecl) :
    (declaration.relabel f l).params = declaration.params.map (Token.reline l) := by
  cases declaration
  rfl

@[simp] theorem FunctionDecl.relabel_body (declaration : FunctionDecl) :
    (declaration.relabel f l).body = declaration.body.map (Stmt.relabel f l) := by
  cases declaration
  exact Stmt.relabelAll_eq_map _

@[simp] theorem Stmt.relabel_isDeclaration (s : Stmt) :
    (s.relabel f l).isDeclaration = s.isDeclaration := by
  cases s with
  | ifElse _ _ onFalse => cases onFalse <;> rfl
  | _ => rfl

/-! ### Numbers that are left as they are -/

/-- Only the numbers that a tree has matter. -/
theorem Occurrence.relabel_congr (occurrence : Occurrence) (h : f occurrence.id = g occurrence.id) :
    occurrence.relabel f l = occurrence.relabel g l := by
  rw [relabel, relabel, h]

mutual

theorem Expr.relabel_congr : ∀ e : Expr, (∀ id ∈ e.ids, f id = g id) →
    e.relabel f l = e.relabel g l
  | .literal _, _ => rfl
  | .group inner, h | .get inner _, h | .unary _ inner, h => by
      rw [relabel, relabel, Expr.relabel_congr inner h]
  | .binary _ left right, h | .logical _ left right, h => by
      rw [relabel, relabel, Expr.relabel_congr left fun id hid => h id (by simp [ids, hid]),
        Expr.relabel_congr right fun id hid => h id (by simp [ids, hid])]
  | .conditional condition onTrue onFalse, h => by
      rw [relabel, relabel,
        Expr.relabel_congr condition fun id hid => h id (by simp [ids, hid]),
        Expr.relabel_congr onTrue fun id hid => h id (by simp [ids, hid]),
        Expr.relabel_congr onFalse fun id hid => h id (by simp [ids, hid])]
  | .use occurrence, h | .this occurrence, h | .super occurrence _, h => by
      rw [relabel, relabel, Occurrence.relabel_congr occurrence (h _ (by simp [ids]))]
  | .assign target value, h => by
      rw [relabel, relabel, Occurrence.relabel_congr target (h _ (by simp [ids])),
        Expr.relabel_congr value fun id hid => h id (by simp [ids, hid])]
  | .call callee _ arguments, h => by
      rw [relabel, relabel, Expr.relabel_congr callee fun id hid => h id (by simp [ids, hid]),
        Expr.relabelAll_congr arguments fun id hid => h id (by simp [ids, hid])]
  | .set object _ value, h => by
      rw [relabel, relabel, Expr.relabel_congr object fun id hid => h id (by simp [ids, hid]),
        Expr.relabel_congr value fun id hid => h id (by simp [ids, hid])]

theorem Expr.relabelAll_congr : ∀ row : List Expr, (∀ id ∈ Expr.idsAll row, f id = g id) →
    Expr.relabelAll f l row = Expr.relabelAll g l row
  | [], _ => rfl
  | e :: rest, h => by
      rw [relabelAll, relabelAll,
        Expr.relabel_congr e fun id hid => h id (by simp [idsAll, hid]),
        Expr.relabelAll_congr rest fun id hid => h id (by simp [idsAll, hid])]

end

mutual

theorem Stmt.relabel_congr : ∀ s : Stmt, (∀ id ∈ s.ids, f id = g id) →
    s.relabel f l = s.relabel g l
  | .expression value, h | .print _ value, h => by
      rw [Stmt.relabel, Stmt.relabel, Expr.relabel_congr value h]
  | .var _ none, _ | .breakLoop _, _ | .returnWith _ none, _ => rfl
  | .var _ (some value), h | .returnWith _ (some value), h => by
      rw [Stmt.relabel, Stmt.relabel, Option.map_some, Option.map_some, Expr.relabel_congr value h]
  | .block body, h => by
      rw [Stmt.relabel, Stmt.relabel, Stmt.relabelAll_congr body h]
  | .ifElse condition onTrue none, h => by
      rw [Stmt.relabel, Stmt.relabel,
        Expr.relabel_congr condition fun id hid => h id (by simp [Stmt.ids, hid]),
        Stmt.relabel_congr onTrue fun id hid => h id (by simp [Stmt.ids, hid])]
  | .ifElse condition onTrue (some onFalse), h => by
      rw [Stmt.relabel, Stmt.relabel,
        Expr.relabel_congr condition fun id hid => h id (by simp [Stmt.ids, hid]),
        Stmt.relabel_congr onTrue fun id hid => h id (by simp [Stmt.ids, hid]),
        Stmt.relabel_congr onFalse fun id hid => h id (by simp [Stmt.ids, hid])]
  | .whileLoop condition body, h => by
      rw [Stmt.relabel, Stmt.relabel,
        Expr.relabel_congr condition fun id hid => h id (by simp [Stmt.ids, hid]),
        Stmt.relabel_congr body fun id hid => h id (by simp [Stmt.ids, hid])]
  | .function declaration, h => by
      rw [Stmt.relabel, Stmt.relabel, FunctionDecl.relabel_congr declaration h]
  | .classDecl _ none methods, h => by
      rw [Stmt.relabel, Stmt.relabel, FunctionDecl.relabelAll_congr methods fun id hid =>
        h id (by simp [Stmt.ids, hid])]
      rfl
  | .classDecl _ (some occurrence) methods, h => by
      rw [Stmt.relabel, Stmt.relabel, Option.map_some, Option.map_some,
        Occurrence.relabel_congr occurrence (h _ (by simp [Stmt.ids])),
        FunctionDecl.relabelAll_congr methods fun id hid => h id (by simp [Stmt.ids, hid])]

theorem Stmt.relabelAll_congr : ∀ body : List Stmt, (∀ id ∈ Stmt.idsAll body, f id = g id) →
    Stmt.relabelAll f l body = Stmt.relabelAll g l body
  | [], _ => rfl
  | s :: rest, h => by
      rw [Stmt.relabelAll, Stmt.relabelAll,
        Stmt.relabel_congr s fun id hid => h id (by simp [Stmt.idsAll, hid]),
        Stmt.relabelAll_congr rest fun id hid => h id (by simp [Stmt.idsAll, hid])]

theorem FunctionDecl.relabel_congr : ∀ declaration : FunctionDecl,
    (∀ id ∈ declaration.ids, f id = g id) → declaration.relabel f l = declaration.relabel g l
  | ⟨_, _, body⟩, h => by
      rw [FunctionDecl.relabel, FunctionDecl.relabel, Stmt.relabelAll_congr body h]

theorem FunctionDecl.relabelAll_congr : ∀ row : List FunctionDecl,
    (∀ id ∈ FunctionDecl.idsAll row, f id = g id) →
    FunctionDecl.relabelAll f l row = FunctionDecl.relabelAll g l row
  | [], _ => rfl
  | declaration :: rest, h => by
      rw [FunctionDecl.relabelAll, FunctionDecl.relabelAll,
        FunctionDecl.relabel_congr declaration fun id hid => h id (by simp [FunctionDecl.idsAll,
          hid]),
        FunctionDecl.relabelAll_congr rest fun id hid => h id (by simp [FunctionDecl.idsAll, hid])]

end

/-! ### The same labels -/

mutual

theorem Expr.relabel_by_id : ∀ e : Expr, e.relabel id id = e
  | .literal _ | .use _ | .this _ | .super _ _ => rfl
  | .group inner | .get inner _ | .unary _ inner => by
      simp only [relabel, Token.reline_by_id, Expr.relabel_by_id inner]
  | .assign _ value => by
      simp only [relabel, Expr.relabel_by_id value]
      rfl
  | .binary _ left right | .logical _ left right | .set left _ right => by
      simp only [relabel, Token.reline_by_id, Expr.relabel_by_id left, Expr.relabel_by_id right]
  | .conditional condition onTrue onFalse => by
      simp only [relabel, Expr.relabel_by_id condition, Expr.relabel_by_id onTrue,
        Expr.relabel_by_id onFalse]
  | .call callee _ arguments => by
      simp only [relabel, Token.reline_by_id, Expr.relabel_by_id callee,
        Expr.relabelAll_by_id arguments]

theorem Expr.relabelAll_by_id : ∀ row : List Expr, Expr.relabelAll id id row = row
  | [] => rfl
  | e :: rest => by
      simp only [relabelAll, Expr.relabel_by_id e, Expr.relabelAll_by_id rest]

end

mutual

theorem Stmt.relabel_by_id : ∀ s : Stmt, s.relabel id id = s
  | .expression value | .print _ value => by
      simp only [Stmt.relabel, Token.reline_by_id, Expr.relabel_by_id value]
  | .var _ none | .breakLoop _ | .returnWith _ none => rfl
  | .var _ (some value) | .returnWith _ (some value) => by
      simp only [Stmt.relabel, Token.reline_by_id, Option.map_some, Expr.relabel_by_id value]
  | .block body => by
      simp only [Stmt.relabel, Stmt.relabelAll_by_id body]
  | .ifElse condition onTrue none => by
      simp only [Stmt.relabel, Expr.relabel_by_id condition, Stmt.relabel_by_id onTrue]
  | .ifElse condition onTrue (some onFalse) => by
      simp only [Stmt.relabel, Expr.relabel_by_id condition, Stmt.relabel_by_id onTrue,
        Stmt.relabel_by_id onFalse]
  | .whileLoop condition body => by
      simp only [Stmt.relabel, Expr.relabel_by_id condition, Stmt.relabel_by_id body]
  | .function declaration => by
      simp only [Stmt.relabel, FunctionDecl.relabel_by_id declaration]
  | .classDecl _ superclass methods => by
      simp only [Stmt.relabel, Token.reline_by_id, FunctionDecl.relabelAll_by_id methods]
      cases superclass <;> rfl

theorem Stmt.relabelAll_by_id : ∀ body : List Stmt, Stmt.relabelAll id id body = body
  | [] => rfl
  | s :: rest => by
      simp only [Stmt.relabelAll, Stmt.relabel_by_id s, Stmt.relabelAll_by_id rest]

theorem FunctionDecl.relabel_by_id : ∀ declaration : FunctionDecl,
    declaration.relabel id id = declaration
  | ⟨_, _, body⟩ => by
      simp only [FunctionDecl.relabel, Token.reline_by_id, Token.map_reline_by_id,
        Stmt.relabelAll_by_id body]

theorem FunctionDecl.relabelAll_by_id : ∀ row : List FunctionDecl,
    FunctionDecl.relabelAll id id row = row
  | [] => rfl
  | declaration :: rest => by
      simp only [FunctionDecl.relabelAll, FunctionDecl.relabel_by_id declaration,
        FunctionDecl.relabelAll_by_id rest]

end

/-- A program whose numbers are left alone stays the same. -/
theorem Stmt.relabelAll_eq_self {body : List Stmt} (h : ∀ id ∈ Stmt.idsAll body, f id = id) :
    Stmt.relabelAll f id body = body :=
  (Stmt.relabelAll_congr (g := id) (l := id) body h).trans (Stmt.relabelAll_by_id body)

/-! ### Other labels twice -/

mutual

theorem Expr.relabel_relabel : ∀ e : Expr, (e.relabel g k).relabel f l = e.relabel (f ∘ g) (l ∘ k)
  | .literal _ | .use _ | .this _ | .super _ _ => rfl
  | .group inner | .get inner _ | .unary _ inner => by
      simp only [relabel, Token.reline_reline, Expr.relabel_relabel inner]
  | .assign _ value => by
      simp only [relabel, Expr.relabel_relabel value]
      rfl
  | .binary _ left right | .logical _ left right | .set left _ right => by
      simp only [relabel, Token.reline_reline, Expr.relabel_relabel left,
        Expr.relabel_relabel right]
  | .conditional condition onTrue onFalse => by
      simp only [relabel, Expr.relabel_relabel condition, Expr.relabel_relabel onTrue,
        Expr.relabel_relabel onFalse]
  | .call callee _ arguments => by
      simp only [relabel, Token.reline_reline, Expr.relabel_relabel callee,
        Expr.relabelAll_relabelAll arguments]

theorem Expr.relabelAll_relabelAll : ∀ row : List Expr,
    Expr.relabelAll f l (Expr.relabelAll g k row) = Expr.relabelAll (f ∘ g) (l ∘ k) row
  | [] => rfl
  | e :: rest => by
      simp only [relabelAll, Expr.relabel_relabel e, Expr.relabelAll_relabelAll rest]

end

mutual

theorem Stmt.relabel_relabel : ∀ s : Stmt, (s.relabel g k).relabel f l = s.relabel (f ∘ g) (l ∘ k)
  | .expression value | .print _ value => by
      simp only [Stmt.relabel, Token.reline_reline, Expr.relabel_relabel value]
  | .var _ none | .breakLoop _ | .returnWith _ none => rfl
  | .var _ (some value) | .returnWith _ (some value) => by
      simp only [Stmt.relabel, Token.reline_reline, Option.map_some, Expr.relabel_relabel value]
  | .block body => by
      simp only [Stmt.relabel, Stmt.relabelAll_relabelAll body]
  | .ifElse condition onTrue none => by
      simp only [Stmt.relabel, Expr.relabel_relabel condition, Stmt.relabel_relabel onTrue]
  | .ifElse condition onTrue (some onFalse) => by
      simp only [Stmt.relabel, Expr.relabel_relabel condition, Stmt.relabel_relabel onTrue,
        Stmt.relabel_relabel onFalse]
  | .whileLoop condition body => by
      simp only [Stmt.relabel, Expr.relabel_relabel condition, Stmt.relabel_relabel body]
  | .function declaration => by
      simp only [Stmt.relabel, FunctionDecl.relabel_relabel declaration]
  | .classDecl _ superclass methods => by
      simp only [Stmt.relabel, Token.reline_reline, FunctionDecl.relabelAll_relabelAll methods,
        Option.map_map]
      rfl

theorem Stmt.relabelAll_relabelAll : ∀ body : List Stmt,
    Stmt.relabelAll f l (Stmt.relabelAll g k body) = Stmt.relabelAll (f ∘ g) (l ∘ k) body
  | [] => rfl
  | s :: rest => by
      simp only [Stmt.relabelAll, Stmt.relabel_relabel s, Stmt.relabelAll_relabelAll rest]

theorem FunctionDecl.relabel_relabel : ∀ declaration : FunctionDecl,
    (declaration.relabel g k).relabel f l = declaration.relabel (f ∘ g) (l ∘ k)
  | ⟨_, _, body⟩ => by
      simp only [FunctionDecl.relabel, Token.reline_reline, Token.map_reline_map_reline,
        Stmt.relabelAll_relabelAll body]

theorem FunctionDecl.relabelAll_relabelAll : ∀ row : List FunctionDecl,
    FunctionDecl.relabelAll f l (FunctionDecl.relabelAll g k row)
      = FunctionDecl.relabelAll (f ∘ g) (l ∘ k) row
  | [] => rfl
  | declaration :: rest => by
      simp only [FunctionDecl.relabelAll, FunctionDecl.relabel_relabel declaration,
        FunctionDecl.relabelAll_relabelAll rest]

end

end Lox
