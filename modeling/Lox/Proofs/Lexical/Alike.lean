/-
Values that are alike.

The reference keeps the local variables in cells, and the machine keeps them in frames.
A layout says where each cell is: in which frame, and under which name.  A list of visible
names and a row of frames then show the same variables if, for every name that the scopes
of the place declare, the cell of the name lies in the frame at the distance of the name.

Two values are alike if they differ in nothing else: functions have the same code, which
is resolved in scopes that both of their surroundings show.  Whatever programs can find
out about a value they find out about both.
-/
import Mathlib.Data.List.Forall2
import Lox.Proofs.Lexical.Evaluator
import Lox.Proofs.Scope.Resolved

namespace Lox.Lexical

open Scope

/-! ### Where the cells are -/

/-- The frame and the name of each cell, in the order of the cells. -/
abbrev Slots := List (Address × String)

/-- What is known about the occurrences and the cells. -/
structure Layout where
  resolution : Resolution
  slots : Slots

/-- More is known about others. -/
structure Layout.Extends (w w' : Layout) : Prop where
  resolution : w.resolution.Extends w'.resolution
  slots : w.slots <+: w'.slots

namespace Layout.Extends

variable {w w' : Layout}

theorem slot (h : w.Extends w') {cell : Cell} {place : Address × String}
    (hslot : w.slots[cell]? = some place) : w'.slots[cell]? = some place := by
  obtain ⟨more, hmore⟩ := h.slots
  rw [← hmore, List.getElem?_append_left (List.getElem?_eq_some_iff.mp hslot).1]
  exact hslot

end Layout.Extends

/-- The visible names and the frames show the same variables, at a place in these scopes. -/
structure Sees (slots : Slots) (scopes : Scopes) (visible : Visible) (env : Env) : Prop where
  bound : ∀ name distance, scopes.distance? name = some distance →
    ∃ a cell, env[distance]? = some a ∧ visible.cell? name = some cell ∧
      slots[cell]? = some (a, name)
  free : ∀ name, scopes.distance? name = none → visible.cell? name = none

theorem Sees.extend {w w' : Layout} {scopes : Scopes} {visible : Visible} {env : Env}
    (h : Sees w.slots scopes visible env) (hext : w.Extends w') :
    Sees w'.slots scopes visible env := by
  refine ⟨fun name distance hdistance => ?_, h.free⟩
  obtain ⟨a, cell, ha, hcell, hslot⟩ := h.bound name distance hdistance
  exact ⟨a, cell, ha, hcell, hext.slot hslot⟩

/-- Outside of all scopes nothing but globals is visible. -/
theorem sees_globals (slots : Slots) : Sees slots [] none Memory.globals := by
  refine ⟨fun name distance hdistance => ?_, fun _ _ => rfl⟩
  rw [Scopes.distance?_nil] at hdistance
  exact absurd hdistance (by simp)

/-! ### Functions, classes and values -/

/-- Two methods that are not yet bound to an instance. -/
structure MethodAlike (w : Layout) (method : Closure Visible) (method' : Closure) : Prop where
  declaration : method.declaration = method'.declaration
  isInitializer : method.isInitializer = method'.isInitializer
  shown : ∃ scopes, Sees w.slots scopes method.env method'.env ∧
    ResolvedFunction w.resolution (thisNames :: scopes) method'.declaration

/-- Two functions; an initializer has been bound to an instance. -/
structure FunctionAlike (w : Layout) (closure : Closure Visible) (closure' : Closure) : Prop where
  declaration : closure.declaration = closure'.declaration
  isInitializer : closure.isInitializer = closure'.isInitializer
  shown : ∃ scopes, Sees w.slots scopes closure.env closure'.env ∧
    ResolvedFunction w.resolution scopes closure'.declaration ∧
    (closure'.isInitializer → scopes.distance? "this" = some 0)

/-- Two layers of classes. -/
structure LayerAlike (w : Layout) (layer : ClassLayer Visible) (layer' : ClassLayer) : Prop where
  identity : layer.identity = layer'.identity
  name : layer.name = layer'.name
  methods : ∀ name, Option.Rel (MethodAlike w) (layer.methods.get? name)
    (layer'.methods.get? name)

/-- Two classes, with all that they inherit. -/
structure ClassAlike (w : Layout) (c : Class Visible) (c' : Class) : Prop where
  own : LayerAlike w c.own c'.own
  inherited : List.Forall₂ (LayerAlike w) c.inherited c'.inherited

/-- Two values. -/
inductive Alike (w : Layout) : Value Visible → Value → Prop
  | nil : Alike w .nil .nil
  | bool (value : Bool) : Alike w (.bool value) (.bool value)
  | number (value : Float) : Alike w (.number value) (.number value)
  | string (text : String) : Alike w (.string text) (.string text)
  | clock : Alike w .clock .clock
  | function (identity : Nat) {closure : Closure Visible} {closure' : Closure}
      (h : FunctionAlike w closure closure') :
      Alike w (.function identity closure) (.function identity closure')
  | classValue {c : Class Visible} {c' : Class} (h : ClassAlike w c c') :
      Alike w (.classValue c) (.classValue c')
  | object (address : Address) {c : Class Visible} {c' : Class} (h : ClassAlike w c c') :
      Alike w (.object address c) (.object address c')

/-! ### What is alike stays alike -/

section Extend

variable {w w' : Layout}

/-- Two optional things that are related stay related when the things do. -/
theorem relOption_imp {α β : Type} {R R' : α → β → Prop} (himp : ∀ a b, R a b → R' a b)
    {a : Option α} {b : Option β} (h : Option.Rel R a b) : Option.Rel R' a b := by
  cases h with
  | none => exact .none
  | some h => exact .some (himp _ _ h)

theorem MethodAlike.extend {method : Closure Visible} {method' : Closure}
    (h : MethodAlike w method method') (hext : w.Extends w') : MethodAlike w' method method' := by
  obtain ⟨scopes, hsees, hresolved⟩ := h.shown
  exact ⟨h.declaration, h.isInitializer, scopes, hsees.extend hext,
    hresolved.extend hext.resolution⟩

theorem FunctionAlike.extend {closure : Closure Visible} {closure' : Closure}
    (h : FunctionAlike w closure closure') (hext : w.Extends w') :
    FunctionAlike w' closure closure' := by
  obtain ⟨scopes, hsees, hresolved, hthis⟩ := h.shown
  exact ⟨h.declaration, h.isInitializer, scopes, hsees.extend hext,
    hresolved.extend hext.resolution, hthis⟩

theorem LayerAlike.extend {layer : ClassLayer Visible} {layer' : ClassLayer}
    (h : LayerAlike w layer layer') (hext : w.Extends w') : LayerAlike w' layer layer' :=
  ⟨h.identity, h.name, fun name => relOption_imp (fun _ _ h => h.extend hext) (h.methods name)⟩

theorem ClassAlike.extend {c : Class Visible} {c' : Class} (h : ClassAlike w c c')
    (hext : w.Extends w') : ClassAlike w' c c' :=
  ⟨h.own.extend hext, h.inherited.imp fun _ _ h => h.extend hext⟩

theorem Alike.extend {v : Value Visible} {v' : Value} (h : Alike w v v') (hext : w.Extends w') :
    Alike w' v v' := by
  cases h with
  | nil => exact .nil
  | bool value => exact .bool value
  | number value => exact .number value
  | string text => exact .string text
  | clock => exact .clock
  | function identity h => exact .function identity (h.extend hext)
  | classValue h => exact .classValue (h.extend hext)
  | object address h => exact .object address (h.extend hext)

end Extend

/-! ### What programs find out about values -/

section Observations

variable {w : Layout} {v v₁ v₂ : Value Visible} {v' v₁' v₂' : Value} {c : Class Visible}
  {c' : Class}

theorem ClassAlike.layers (h : ClassAlike w c c') :
    List.Forall₂ (LayerAlike w) c.layers c'.layers :=
  .cons h.own h.inherited

theorem ClassAlike.find? (h : ClassAlike w c c') (name : String) :
    Option.Rel (MethodAlike w) (c.find? name) (c'.find? name) := by
  unfold Class.find?
  have hlayers := h.layers
  generalize c.layers = layers at hlayers ⊢
  generalize c'.layers = layers' at hlayers ⊢
  induction hlayers with
  | nil => exact .none
  | cons hlayer _ ih =>
      rw [List.findSome?_cons, List.findSome?_cons]
      have hmethod := hlayer.methods name
      generalize (ClassLayer.methods _).get? name = method at hmethod ⊢
      generalize (ClassLayer.methods _).get? name = method' at hmethod ⊢
      cases hmethod with
      | none => exact ih
      | some hmethod => exact .some hmethod

theorem ClassAlike.arity (h : ClassAlike w c c') : c.arity = c'.arity := by
  unfold Class.arity
  have hfind := h.find? initializerName
  generalize c.find? initializerName = method at hfind ⊢
  generalize c'.find? initializerName = method' at hfind ⊢
  cases hfind with
  | none => rfl
  | some hmethod => simp only [hmethod.declaration]

theorem Alike.arity? (h : Alike w v v') : Machine.arity? v = Machine.arity? v' := by
  cases h with
  | function identity h => simp only [Machine.arity?, h.declaration]
  | classValue h => simp only [Machine.arity?, h.arity]
  | _ => rfl

theorem Alike.ofLiteral (literal : Literal) : Alike w (.ofLiteral literal) (.ofLiteral literal) := by
  cases literal with
  | string text => exact .string text
  | number value => exact .number value
  | nil => exact .nil
  | bool value => exact .bool value

theorem Alike.isTruthy (h : Alike w v v') : v.isTruthy = v'.isTruthy := by
  cases h with
  | bool value => cases value <;> rfl
  | _ => rfl

theorem Alike.display (h : Alike w v v') : v.display = v'.display := by
  cases h with
  | function identity h => simp only [Value.display, h.declaration]
  | classValue h => exact h.own.name
  | object address h => simp only [Value.display, h.own.name]
  | _ => rfl

theorem Alike.equals (h₁ : Alike w v₁ v₁') (h₂ : Alike w v₂ v₂') :
    v₁.equals v₂ = v₁'.equals v₂' := by
  cases h₁ with
  | classValue h₁ =>
      cases h₂ with
      | classValue h₂ => simp only [Value.equals, h₁.own.identity, h₂.own.identity]
      | _ => rfl
  | _ => cases h₂ <;> rfl

/-- What an operator computes is alike, or the same failure. -/
inductive ResultAlike (w : Layout) :
    Except Failure.Cause (Value Visible) → Except Failure.Cause Value → Prop
  | ok {v : Value Visible} {v' : Value} (h : Alike w v v') : ResultAlike w (.ok v) (.ok v')
  | error (cause : Failure.Cause) : ResultAlike w (.error cause) (.error cause)

theorem Alike.unary (operator : TokenKind) (h : Alike w v v') :
    ResultAlike w (Value.unary operator v) (Value.unary operator v') := by
  by_cases hminus : operator = .minus
  · subst hminus
    cases h with
    | number value => exact .ok (.number (-value))
    | _ => exact .error _
  by_cases hbang : operator = .bang
  · subst hbang
    simp only [Value.unary, h.isTruthy]
    exact .ok (.bool _)
  have hother : ∀ {ε : Type} (u : Value ε), Value.unary operator u = .error .operandNotNumber := by
    intro ε u
    unfold Value.unary
    split
    · exact absurd rfl hminus
    · exact absurd rfl hbang
    · rfl
  rw [hother, hother]
  exact .error _

theorem Alike.add (h₁ : Alike w v₁ v₁') (h₂ : Alike w v₂ v₂') :
    ResultAlike w (Value.add v₁ v₂) (Value.add v₁' v₂') := by
  have hshown₁ := h₁.display
  have hshown₂ := h₂.display
  cases h₁ <;> cases h₂ <;>
    first
    | exact .error _
    | exact .ok (.number _)
    | (simp only [Value.add, hshown₁, hshown₂]
       exact .ok (.string _))

theorem ResultAlike.arithmetic (operator : TokenKind) (x y : Float) :
    ResultAlike w (Value.arithmetic operator x y) (Value.arithmetic operator x y) := by
  unfold Value.arithmetic
  split
  case h_3 =>
    split
    · exact .error _
    · exact .ok (.number _)
  all_goals
    first
    | exact .ok (.number _)
    | exact .ok (.bool _)
    | exact .error _

theorem Alike.binary (operator : TokenKind) (h₁ : Alike w v₁ v₁') (h₂ : Alike w v₂ v₂') :
    ResultAlike w (Value.binary operator v₁ v₂) (Value.binary operator v₁' v₂') := by
  unfold Value.binary
  split
  · exact .ok h₂
  · rw [h₁.equals h₂]
    exact .ok (.bool _)
  · exact h₁.add h₂
  · cases h₁ with
    | number x =>
        cases h₂ with
        | number y => exact .arithmetic operator x y
        | _ => exact .error _
    | _ => exact .error _

/-- The methods of a declaration, in surroundings that show the same variables. -/
theorem methodTable_alike {scopes : Scopes} {visible : Visible} {env : Env}
    {methods : List FunctionDecl} (hsees : Sees w.slots scopes visible env)
    (hmethods : ∀ f ∈ methods, ResolvedFunction w.resolution (thisNames :: scopes) f)
    (name : String) :
    Option.Rel (MethodAlike w) ((Machine.methodTable visible methods).get? name)
      ((Machine.methodTable env methods).get? name) := by
  have htable : ∀ {ε : Type} (surroundings : ε),
      (Machine.methodTable surroundings methods).get? name
        = (methods.reverse.find? (fun f => f.name.lexeme = name)).map fun f =>
            (⟨f, surroundings, f.name.lexeme = initializerName⟩ : Closure ε) := by
    intro ε surroundings
    unfold Machine.methodTable
    rw [get?_foldl_insert (fun f : FunctionDecl => f.name.lexeme)
      (fun f => (⟨f, surroundings, f.name.lexeme = initializerName⟩ : Closure ε))]
    rw [Bindings.get?_nil, Option.or_none]
  rw [htable, htable]
  cases hfind : methods.reverse.find? (fun f => f.name.lexeme = name) with
  | none => exact .none
  | some f =>
      have hmem := List.mem_reverse.mp (List.mem_of_find?_eq_some hfind)
      exact .some ⟨rfl, rfl, scopes, hsees, hmethods f hmem⟩

end Observations

end Lox.Lexical
