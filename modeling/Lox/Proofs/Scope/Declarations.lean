/-
The declaration that a distance denotes.

A distance counts the scopes between a mention of a name and the scope that declares
it.  The scopes around a place are a matter of what is around the place: a block is one
scope, a function with its parameters is one, and the methods of a class stand in one
for `this`, and in another one for `super` if the class has a superclass.  In a scope,
the latest declaration of the name is meant that is not behind the place.
-/
import Lox.Proofs.Syntax.Places

namespace Lox

namespace Node

/-- A method. -/
def isMethod : Node → Bool
  | method _ => true
  | _ => false

/-- How many scopes a part opens around what stands at a position in it. -/
def scopesAt : Node → Nat → Nat
  | stmt (.block _), _ | function _, _ | method _, _ => 1
  | stmt (.classDecl _ superclass _), position =>
      if superclass.toList.length ≤ position then 1 + superclass.toList.length else 0
  | _, _ => 0

/-- A part declares a name in the scope it stands in. -/
def declares (node : Node) (name : String) : Bool :=
  node.declared?.any fun token => token.lexeme = name

end Node

namespace Place

/-- The scopes around a place, the innermost first; of each, how many of its parts are not
behind the place. -/
def visible : List (Node × Nat) → List (Place × Nat)
  | [] => []
  | (node, position) :: outer =>
      List.replicate (node.scopesAt position) (⟨outer, node⟩, position + 1) ++ visible outer

/-- The latest declaration of a name among the first so many parts of a scope. -/
structure Latest (scope : Place) (count : Nat) (name : String) (declaration : Place) : Prop where
  intro ::
  found : ∃ i node, i < count ∧ scope.node.parts[i]? = some node ∧ node.declares name = true ∧
    declaration = scope.part i node ∧
    ∀ j other, i < j → j < count → scope.node.parts[j]? = some other → other.declares name = false

/-- Seen from within some scopes, the distance of a name denotes a declaration of it. -/
def DenotesIn (scopes : List (Place × Nat)) (distance : Nat) (name : String)
    (declaration : Place) : Prop :=
  ∃ scope count, scopes[distance]? = some (scope, count) ∧ scope.Latest count name declaration

/-- At a place, the distance of a name denotes a declaration of it. -/
def Denotes (p : Place) (distance : Nat) (name : String) (declaration : Place) : Prop :=
  DenotesIn (visible p.site) distance name declaration

/-- The innermost part of a kind that a place is or stands in. -/
def enclosing? (kind : Node → Bool) (p : Place) : Option Place :=
  if kind p.node then some p else around? kind p.site
where
  /-- The innermost part of a kind around a place. -/
  around? (kind : Node → Bool) : List (Node × Nat) → Option Place
    | [] => none
    | (node, _) :: outer => if kind node then some ⟨outer, node⟩ else around? kind outer

variable {p : Place} {position : Nat} {node : Node} {kind : Node → Bool}

/-! ### Scopes around the parts of a place -/

/-- Directly in a block or a function, that is the innermost scope. -/
theorem visible_part_of_isScope (h : p.node.isScope = true) :
    visible (p.part position node).site = (p, position + 1) :: visible p.site := by
  have hone : p.node.scopesAt position = 1 := by
    obtain ⟨site, node⟩ := p
    cases node with
    | stmt s => cases s <;> first | rfl | cases h
    | function _ | method _ => rfl
    | program _ | expr _ | param _ => cases h
  rw [part, visible, hone]
  rfl

theorem visible_part (h : p.node.scopesAt position = 0) :
    visible (p.part position node).site = visible p.site := by
  rw [part, visible, h]
  rfl

/-! ### The latest declaration -/

variable {scope declaration : Place} {count : Nat} {name : String}

/-- A part that declares something else is not in the way. -/
theorem Latest.skip (h : scope.Latest count name declaration)
    (hpart : scope.node.parts[count]? = some node) (hother : node.declares name = false) :
    scope.Latest (count + 1) name declaration := by
  obtain ⟨i, found, hi, hfound, hdeclares, heq, hlatest⟩ := h.found
  refine ⟨i, found, Nat.lt_succ_of_lt hi, hfound, hdeclares, heq, fun j other hij hj hpart' => ?_⟩
  rcases Nat.lt_succ_iff_lt_or_eq.mp hj with hj | rfl
  · exact hlatest j other hij hj hpart'
  · rw [hpart] at hpart'
    obtain rfl := Option.some.inj hpart'
    exact hother

/-- A part that declares the name is the latest one to do so. -/
theorem Latest.here (hpart : scope.node.parts[count]? = some node)
    (hdeclares : node.declares name = true) :
    scope.Latest (count + 1) name (scope.part count node) :=
  ⟨count, node, Nat.lt_succ_self count, hpart, hdeclares, rfl, fun j other hij hj _ => by omega⟩

/-! ### The innermost part of a kind -/

theorem enclosing?_self (h : kind p.node = true) : p.enclosing? kind = some p := by
  rw [enclosing?, if_pos h]

/-- There is such a part if something around the place is of the kind. -/
theorem around?_isSome (kind : Node → Bool) (site : List (Node × Nat)) :
    (enclosing?.around? kind site).isSome = ((site.map Prod.fst).find? kind).isSome := by
  induction site with
  | nil => rfl
  | cons entry outer ih =>
      rw [enclosing?.around?, List.map_cons, List.find?_cons]
      cases kind entry.1 with
      | true => rfl
      | false => exact ih

end Place

end Lox
