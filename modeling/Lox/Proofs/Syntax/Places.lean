/-
Places in a program.

A place is a part of a program together with everything that it is a part of: the
parts around it, the innermost first, each with the position at which the next one
stands in it.  So two equal parts at different positions are two places, and whatever
surrounds a place can be read off it.
-/
import Lox.Syntax.Tree

namespace Lox

/-- A part of a program. -/
inductive Node where
  | program (body : List Stmt)
  | stmt (s : Stmt)
  | expr (e : Expr)
  | function (declaration : FunctionDecl)
  | method (declaration : FunctionDecl)
  | param (name : Token)

namespace Node

/-! ### Parts -/

/-- The parts of an expression; of an assignment to a property the value comes first. -/
def ofExpr : Expr → List Node
  | .literal _ | .use _ | .this _ | .super _ _ => []
  | .group inner => [expr inner]
  | .unary _ operand => [expr operand]
  | .binary _ left right | .logical _ left right => [expr left, expr right]
  | .conditional condition onTrue onFalse => [expr condition, expr onTrue, expr onFalse]
  | .assign _ value => [expr value]
  | .call callee _ arguments => expr callee :: arguments.map expr
  | .get object _ => [expr object]
  | .set object _ value => [expr value, expr object]

/-- The parts of a statement.  A superclass is a variable that is read. -/
def ofStmt : Stmt → List Node
  | .expression value | .print _ value => [expr value]
  | .var _ initializer => initializer.toList.map expr
  | .block body => body.map stmt
  | .ifElse condition onTrue onFalse => expr condition :: stmt onTrue :: onFalse.toList.map stmt
  | .whileLoop condition body => [expr condition, stmt body]
  | .breakLoop _ => []
  | .function declaration => [function declaration]
  | .returnWith _ value => value.toList.map expr
  | .classDecl _ superclass methods =>
      superclass.toList.map (fun occurrence => expr (.use occurrence)) ++ methods.map method

/-- The parts of a function: its parameters, and behind them its body. -/
def ofFunction (declaration : FunctionDecl) : List Node :=
  declaration.params.map param ++ declaration.body.map stmt

/-- The parts that a part is made of, in order. -/
def parts : Node → List Node
  | program body => body.map stmt
  | stmt s => ofStmt s
  | expr e => ofExpr e
  | function declaration | method declaration => ofFunction declaration
  | param _ => []

/-! ### Kinds of parts -/

/-- A part with statements of its own that is called. -/
def isFunction : Node → Bool
  | function _ | method _ => true
  | _ => false

/-- A part that is repeated. -/
def isLoop : Node → Bool
  | stmt (.whileLoop _ _) => true
  | _ => false

/-- A part that declares a class. -/
def isClass : Node → Bool
  | stmt (.classDecl _ _ _) => true
  | _ => false

/-- A part that is a statement. -/
def isStmt : Node → Bool
  | stmt _ => true
  | _ => false

/-- A part whose own parts can be declarations of local names: a block, or a function,
whose parameters and body are one scope. -/
def isScope : Node → Bool
  | stmt (.block _) | function _ | method _ => true
  | _ => false

/-- The name that a part declares in the scope it stands in. -/
def declared? : Node → Option Token
  | stmt (.var name _) => some name
  | stmt (.function declaration) => some declaration.name
  | stmt (.classDecl name _ _) => some name
  | param name => some name
  | _ => none

/-- A property that goes over from a part to the parts in it. -/
def Hereditary (P : Node → Prop) : Prop :=
  ∀ n, P n → ∀ part ∈ n.parts, P part

end Node

/-- A part of a program, and what it is a part of: the parts around it, the innermost
first, each with the position of the next one in it. -/
structure Place where
  site : List (Node × Nat)
  node : Node

namespace Place

/-- The whole of a program. -/
def whole (program : List Stmt) : Place :=
  ⟨[], .program program⟩

/-- The place of the part that stands at a position in a place. -/
def part (p : Place) (position : Nat) (node : Node) : Place :=
  ⟨(p.node, position) :: p.site, node⟩

/-- What is around a place, the innermost first. -/
def around (p : Place) : List Node :=
  p.site.map Prod.fst

@[simp] theorem part_node (p : Place) (position : Nat) (node : Node) :
    (p.part position node).node = node :=
  rfl

@[simp] theorem around_part (p : Place) (position : Nat) (node : Node) :
    (p.part position node).around = p.node :: p.around :=
  rfl

/-- `Within p q`: the place `q` is the place `p` or inside of it. -/
inductive Within (p : Place) : Place → Prop
  | self : Within p p
  | inside {q : Place} {position : Nat} {node : Node} (h : Within p q)
      (hpart : q.node.parts[position]? = some node) : Within p (q.part position node)

/-- A place in a program. -/
def IsIn (program : List Stmt) (p : Place) : Prop :=
  (whole program).Within p

variable {p q : Place} {position : Nat} {node : Node}

/-- Inside of a place, everything around the place is around. -/
theorem Within.site (h : p.Within q) : ∃ inner, q.site = inner ++ p.site := by
  induction h with
  | self => exact ⟨[], rfl⟩
  | @inside q position node _ _ ih =>
      obtain ⟨inner, hinner⟩ := ih
      exact ⟨(q.node, position) :: inner, by rw [part, hinner]; rfl⟩

/-- What is inside of a part of a place is inside of the place. -/
theorem Within.outer (hpart : p.node.parts[position]? = some node)
    (h : (p.part position node).Within q) : p.Within q := by
  induction h with
  | self => exact .inside .self hpart
  | inside _ hinner ih => exact .inside ih hinner

/-- Whatever is inside of a place is the place itself or inside of one of its parts. -/
theorem within_iff : p.Within q ↔
    q = p ∨ ∃ position node, p.node.parts[position]? = some node ∧
      (p.part position node).Within q := by
  constructor
  · intro h
    induction h with
    | self => exact Or.inl rfl
    | @inside q position node _ hpart ih =>
        rcases ih with rfl | ⟨outer, above, habove, hwithin⟩
        · exact Or.inr ⟨position, node, hpart, .self⟩
        · exact Or.inr ⟨outer, above, habove, .inside hwithin hpart⟩
  · rintro (rfl | ⟨position, node, hpart, hwithin⟩)
    · exact .self
    · exact hwithin.outer hpart

/-- A place is not inside of its parts. -/
theorem not_within_part : ¬(p.part position node).Within p := by
  intro h
  obtain ⟨inner, hinner⟩ := h.site
  have hlength := congrArg List.length hinner
  simp only [part, List.length_append, List.length_cons] at hlength
  omega

/-- Nothing is inside of two parts at different positions. -/
theorem Within.position_eq {other : Nat} {node' : Node} (h : (p.part position node).Within q)
    (h' : (p.part other node').Within q) : position = other := by
  obtain ⟨inner, hinner⟩ := h.site
  obtain ⟨inner', hinner'⟩ := h'.site
  have heq := hinner.symm.trans hinner'
  obtain ⟨-, hlast⟩ := List.append_inj' heq (by simp [part])
  exact (Prod.mk.inj (List.cons.inj hlast).1).2

/-- To be a part of a program goes over to the parts in it. -/
theorem hereditary (program : List Stmt) :
    Node.Hereditary fun n => ∃ site, IsIn program ⟨site, n⟩ := by
  rintro n ⟨site, hplace⟩ part hpart
  obtain ⟨position, hposition⟩ := List.mem_iff_getElem?.mp hpart
  exact ⟨_, hplace.inside hposition⟩

/-- What is true of a program and goes over from a part to the parts in it is true of each part
of the program. -/
theorem IsIn.of_hereditary {P : Node → Prop} {program : List Stmt} (hP : Node.Hereditary P)
    (hprogram : P (.program program)) (h : IsIn program p) : P p.node := by
  induction h with
  | self => exact hprogram
  | inside _ hpart ih => exact hP _ ih _ (List.mem_of_getElem? hpart)

end Place

end Lox
