/-
What every tree that was read has in common.

Its occurrences are numbered apart: no two have one number, and all numbers lie between
the latest one before the tree was read and the latest one behind it.  Declarations
stand only where declarations may stand, so that neither a branch of an `if` nor the
body of a loop is one.  And its names are what names are spelled like: a variable, a
parameter, a function or a class is never called `this` or `super`.
-/
import Lox.Syntax.Tree

namespace Lox

/-! ### The numbers of the occurrences -/

mutual

/-- The numbers of the occurrences in an expression. -/
def Expr.ids : Expr → List Nat
  | .literal _ => []
  | .group inner => inner.ids
  | .unary _ operand => operand.ids
  | .binary _ left right => left.ids ++ right.ids
  | .logical _ left right => left.ids ++ right.ids
  | .conditional condition onTrue onFalse => condition.ids ++ (onTrue.ids ++ onFalse.ids)
  | .use occurrence => [occurrence.id]
  | .assign target value => value.ids ++ [target.id]
  | .call callee _ arguments => callee.ids ++ Expr.idsAll arguments
  | .get object _ => object.ids
  | .set object _ value => value.ids ++ object.ids
  | .this receiver => [receiver.id]
  | .super keyword _ => [keyword.id]

/-- The numbers of the occurrences in several expressions. -/
def Expr.idsAll : List Expr → List Nat
  | [] => []
  | e :: rest => e.ids ++ Expr.idsAll rest

end

mutual

/-- The numbers of the occurrences in a statement. -/
def Stmt.ids : Stmt → List Nat
  | .expression value => value.ids
  | .print _ value => value.ids
  | .var _ none => []
  | .var _ (some value) => value.ids
  | .block body => Stmt.idsAll body
  | .ifElse condition onTrue none => condition.ids ++ onTrue.ids
  | .ifElse condition onTrue (some onFalse) => condition.ids ++ (onTrue.ids ++ onFalse.ids)
  | .whileLoop condition body => condition.ids ++ body.ids
  | .breakLoop _ => []
  | .function declaration => declaration.ids
  | .returnWith _ none => []
  | .returnWith _ (some value) => value.ids
  | .classDecl _ superclass methods =>
      (superclass.map Occurrence.id).toList ++ FunctionDecl.idsAll methods

/-- The numbers of the occurrences in several statements. -/
def Stmt.idsAll : List Stmt → List Nat
  | [] => []
  | s :: rest => s.ids ++ Stmt.idsAll rest

/-- The numbers of the occurrences in a function. -/
def FunctionDecl.ids : FunctionDecl → List Nat
  | ⟨_, _, body⟩ => Stmt.idsAll body

/-- The numbers of the occurrences in several functions. -/
def FunctionDecl.idsAll : List FunctionDecl → List Nat
  | [] => []
  | f :: rest => f.ids ++ FunctionDecl.idsAll rest

end

/-- Numbers that were given out one after the other, the first behind `first` and the
last up to `last`, in whatever order they are listed. -/
structure Numbered (first : Nat) (ids : List Nat) (last : Nat) : Prop where
  le : first ≤ last
  nodup : ids.Nodup
  within : ∀ id ∈ ids, first < id ∧ id ≤ last

namespace Numbered

variable {first middle last : Nat} {before behind : List Nat}

theorem nil (h : first ≤ last) : Numbered first [] last :=
  ⟨h, List.nodup_nil, fun _ h => absurd h List.not_mem_nil⟩

theorem single (first : Nat) : Numbered first [first + 1] (first + 1) :=
  ⟨Nat.le_succ first, by simp, by simp⟩

theorem append (h₁ : Numbered first before middle) (h₂ : Numbered middle behind last) :
    Numbered first (before ++ behind) last := by
  refine ⟨Nat.le_trans h₁.le h₂.le, ?_, ?_⟩
  · refine List.nodup_append.mpr ⟨h₁.nodup, h₂.nodup, ?_⟩
    intro id hid id' hid' heq
    have h := (h₁.within id hid).2
    have h' := (h₂.within id' hid').1
    omega
  · intro id hid
    have hle₁ := h₁.le
    have hle₂ := h₂.le
    rcases List.mem_append.mp hid with hid | hid
    · have := h₁.within id hid
      omega
    · have := h₂.within id hid
      omega

/-- What was numbered later may be listed earlier. -/
theorem append_swap (h₁ : Numbered first before middle) (h₂ : Numbered middle behind last) :
    Numbered first (behind ++ before) last := by
  obtain ⟨hle, hnodup, hwithin⟩ := h₁.append h₂
  exact ⟨hle, List.perm_append_comm.nodup hnodup, fun id hid => hwithin id (by
    simpa [or_comm] using hid)⟩

/-- A number that no occurrence has may have been given out before. -/
theorem skip (h : Numbered (first + 1) before last) : Numbered first before last :=
  ⟨Nat.le_of_succ_le h.le, h.nodup, fun id hid => by
    have := h.within id hid
    omega⟩

end Numbered

/-! ### Shapes and spellings -/

/-- A name that is a word of the program and not of the language. -/
def Ordinary (name : String) : Prop :=
  name ≠ "this" ∧ name ≠ "super"

/-- A declaration adds a name to the scope it stands in. -/
def Stmt.isDeclaration : Stmt → Bool
  | .var _ _ | .function _ | .classDecl _ _ _ => true
  | _ => false

/-- The names in an expression are spelled like names. -/
inductive Expr.Formed : Expr → Prop
  | literal {value : Literal} : Formed (.literal value)
  | group {inner : Expr} (h : inner.Formed) : Formed (.group inner)
  | unary {operator : Token} {operand : Expr} (h : operand.Formed) :
      Formed (.unary operator operand)
  | binary {operator : Token} {left right : Expr} (hleft : left.Formed)
      (hright : right.Formed) : Formed (.binary operator left right)
  | logical {operator : Token} {left right : Expr} (hleft : left.Formed)
      (hright : right.Formed) : Formed (.logical operator left right)
  | conditional {condition onTrue onFalse : Expr} (hcondition : condition.Formed)
      (hTrue : onTrue.Formed) (hFalse : onFalse.Formed) :
      Formed (.conditional condition onTrue onFalse)
  | use {occurrence : Occurrence} (h : Ordinary occurrence.name.lexeme) :
      Formed (.use occurrence)
  | assign {target : Occurrence} {value : Expr} (hname : Ordinary target.name.lexeme)
      (hvalue : value.Formed) : Formed (.assign target value)
  | call {callee : Expr} {paren : Token} {arguments : List Expr} (hcallee : callee.Formed)
      (harguments : ∀ e ∈ arguments, e.Formed) : Formed (.call callee paren arguments)
  | get {object : Expr} {property : Token} (h : object.Formed) : Formed (.get object property)
  | set {object : Expr} {property : Token} {value : Expr} (hobject : object.Formed)
      (hvalue : value.Formed) : Formed (.set object property value)
  | this {receiver : Occurrence} (h : receiver.name.lexeme = "this") : Formed (.this receiver)
  | super {keyword : Occurrence} {method : Token} (h : keyword.name.lexeme = "super") :
      Formed (.super keyword method)

mutual

/-- The names in a statement are spelled like names, and its parts are no declarations
unless they are in a block. -/
inductive Stmt.Formed : Stmt → Prop
  | expression {value : Expr} (h : value.Formed) : Stmt.Formed (.expression value)
  | print {keyword : Token} {value : Expr} (h : value.Formed) : Stmt.Formed (.print keyword value)
  | var {name : Token} {initializer : Option Expr} (hname : Ordinary name.lexeme)
      (h : ∀ value ∈ initializer, value.Formed) : Stmt.Formed (.var name initializer)
  | block {body : List Stmt} (h : ∀ s ∈ body, s.Formed) : Stmt.Formed (.block body)
  | ifElse {condition : Expr} {onTrue : Stmt} {onFalse : Option Stmt}
      (hcondition : condition.Formed) (hTrue : onTrue.Formed)
      (hnested : onTrue.isDeclaration = false)
      (hFalse : ∀ s ∈ onFalse, s.Formed)
      (hnested' : ∀ s ∈ onFalse, s.isDeclaration = false) :
      Stmt.Formed (.ifElse condition onTrue onFalse)
  | whileLoop {condition : Expr} {body : Stmt} (hcondition : condition.Formed)
      (hbody : body.Formed) (hnested : body.isDeclaration = false) :
      Stmt.Formed (.whileLoop condition body)
  | breakLoop {keyword : Token} : Stmt.Formed (.breakLoop keyword)
  | function {declaration : FunctionDecl} (h : declaration.Formed) :
      Stmt.Formed (.function declaration)
  | returnWith {keyword : Token} {value : Option Expr} (h : ∀ e ∈ value, e.Formed) :
      Stmt.Formed (.returnWith keyword value)
  | classDecl {name : Token} {superclass : Option Occurrence} {methods : List FunctionDecl}
      (hname : Ordinary name.lexeme)
      (habove : ∀ occurrence ∈ superclass, Ordinary occurrence.name.lexeme)
      (hmethods : ∀ f ∈ methods, f.Formed) : Stmt.Formed (.classDecl name superclass methods)

/-- The same for a function. -/
inductive FunctionDecl.Formed : FunctionDecl → Prop
  | mk {name : Token} {params : List Token} {body : List Stmt} (hname : Ordinary name.lexeme)
      (hparams : ∀ param ∈ params, Ordinary param.lexeme) (hbody : ∀ s ∈ body, s.Formed) :
      FunctionDecl.Formed ⟨name, params, body⟩

end

end Lox
