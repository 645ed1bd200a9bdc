/-
Places, and what declarations do there.

The reference and the machine are at the same place if they show the same variables in
the scopes of the place, and if the innermost frame has cells for nothing but what the
innermost scope has declared so far.  That is why a name that is new to the scope is new
to the frame.

Whatever happens inside of an expression, calls included, puts cells into frames that are
newer than the innermost one.  So a bound on the frames is all that has to be known about
the cells that come later.
-/
import Lox.Proofs.Lexical.Agreement

namespace Lox.Lexical

open Scope

/-! ### Later on -/

/-- There are more cells and frames, and the new cells are in frames from `bound` on. -/
structure Later (bound : Address) (w : Layout) (m : Memory) (w' : Layout) (m' : Memory) :
    Prop where
  resolution : w'.resolution = w.resolution
  slots : w.slots <+: w'.slots
  size : m.frames.size ≤ m'.frames.size
  only : ∀ place ∈ w'.slots, place ∈ w.slots ∨ bound ≤ place.1

section Later

variable {bound bound' : Address} {w w' w'' : Layout} {m m' m'' : Memory}

/-- Nothing has happened to cells and frames. -/
theorem Later.same (hsize : m.frames.size = m'.frames.size) : Later bound w m w m' :=
  ⟨rfl, List.prefix_refl _, Nat.le_of_eq hsize, fun _ hplace => Or.inl hplace⟩

theorem Later.refl (bound : Address) (w : Layout) (m : Memory) : Later bound w m w m :=
  .same rfl

theorem Later.trans (h : Later bound w m w' m') (h' : Later bound w' m' w'' m'') :
    Later bound w m w'' m'' := by
  refine ⟨h'.resolution.trans h.resolution, h.slots.trans h'.slots, Nat.le_trans h.size h'.size,
    fun place hplace => ?_⟩
  rcases h'.only place hplace with hplace | hbound
  · exact h.only place hplace
  · exact Or.inr hbound

theorem Later.mono (h : Later bound w m w' m') (hle : bound' ≤ bound) : Later bound' w m w' m' :=
  ⟨h.resolution, h.slots, h.size, fun place hplace => (h.only place hplace).imp_right (Nat.le_trans hle)⟩

theorem Later.extends (h : Later bound w m w' m') : w.Extends w' :=
  ⟨by rw [h.resolution]; exact .refl _, h.slots⟩

end Later

/-! ### The same place -/

/-- The visible names and the frames are those of a place in these scopes, and `top` is the
innermost frame. -/
structure Here (w : Layout) (m : Memory) (scopes : Scopes) (visible : Visible) (top : Address)
    (env : Env) : Prop where
  sees : Sees w.slots scopes visible env
  outside : visible = none ↔ scopes = []
  global : top = 0 ↔ scopes = []
  head : env.head? = some top
  size : top < m.frames.size
  fresh : ∀ name, (top, name) ∈ w.slots → scopes.declaresInnermost name = true

section Here

variable {w w' : Layout} {t : Store} {m m' : Memory} {sink : Machine.Sink} {scopes : Scopes}
  {visible : Visible} {top : Address} {env : Env} {name : String}

/-- After whatever happened in newer frames, the place is still the same. -/
theorem Here.later (h : Here w m scopes visible top env) (hlater : Later (top + 1) w m w' m') :
    Here w' m' scopes visible top env := by
  refine { h with
    sees := h.sees.extend hlater.extends
    size := Nat.lt_of_lt_of_le h.size hlater.size
    fresh := fun name hplace => ?_ }
  rcases hlater.only _ hplace with hplace | hbound
  · exact h.fresh name hplace
  · exact absurd hbound (Nat.not_succ_le_self top)

/-- Whether a declaration is complete does not matter. -/
theorem Here.remark {complete : Bool} (h : Here w m (scopes.mark name complete) visible top env)
    (complete' : Bool) : Here w m (scopes.mark name complete') visible top env := by
  have hnil : scopes.mark name complete = [] ↔ scopes.mark name complete' = [] := by
    rw [Scopes.mark_eq_nil_iff, Scopes.mark_eq_nil_iff]
  refine { h with
    sees := ⟨fun other distance hdistance => ?_, fun other hdistance => ?_⟩
    outside := h.outside.trans hnil
    global := h.global.trans hnil
    fresh := fun other hplace => ?_ }
  · rw [Scopes.distance?_remark complete] at hdistance
    exact h.sees.bound other distance hdistance
  · rw [Scopes.distance?_remark complete] at hdistance
    exact h.sees.free other hdistance
  · have hdeclared := h.fresh other hplace
    cases scopes with
    | nil => exact hdeclared
    | cons names outer =>
        rw [Scopes.mark, Scopes.declaresInnermost, Bindings.binds_insert] at hdeclared ⊢
        exact hdeclared

/-- The place outside of all scopes. -/
theorem here_globals (h : Agrees w t m sink) : Here w m [] none 0 Memory.globals := by
  refine ⟨sees_globals _, ⟨fun _ => rfl, fun _ => rfl⟩, ⟨fun _ => rfl, fun _ => rfl⟩, rfl,
    h.globals, fun name hplace => ?_⟩
  exact absurd (h.placed _ hplace).1 (Nat.lt_irrefl 0)

theorem Here.define_eq (h : Here w m scopes visible top env) (m' : Memory) (name : String)
    (v : Value) : m'.define env name v = m'.bindAt top name v := by
  obtain ⟨outer, rfl⟩ := List.head?_eq_some_iff.mp h.head
  rfl

end Here

/-! ### Actions that only change the store -/

section Actions

variable {α β : Type} {t t' : Store} {a : α}

theorem bind_of_done {p : Action α} (h : p t = (.done a, t')) (f : α → Action β) :
    (p >>= f) t = f a t' := by
  show Action.bind p f t = f a t'
  rw [Action.bind, h]

theorem bind_assoc {γ : Type} (p : Action α) (f : α → Action β) (g : β → Action γ) :
    (p >>= f) >>= g = p >>= fun a => f a >>= g := by
  funext t
  show Action.bind (Action.bind p f) g t = Action.bind p (fun a => Action.bind (f a) g) t
  unfold Action.bind
  cases p t with
  | mk result t => cases result <;> rfl

end Actions

/-! ### Declarations -/

section Declarations

variable {w : Layout} {t : Store} {m : Memory} {sink : Machine.Sink} {scopes : Scopes}
  {visible : Visible} {top : Address} {env : Env} {name : String}

theorem cell?_cons (names : List (String × Cell)) (name other : String) (cell : Cell) :
    Visible.cell? (some ((name, cell) :: names)) other
      = if name = other then some cell else Visible.cell? (some names) other := by
  simp only [Visible.cell?, Option.getD_some, List.lookup_cons]
  by_cases heq : name = other
  · simp [heq]
  · rw [if_neg heq, beq_false_of_ne (Ne.symm heq)]

/-- A new cell for a name in the innermost frame is what a declaration shows. -/
theorem Sees.declare {names : List (String × Cell)} (h : Sees w.slots scopes (some names) env)
    (hhead : env.head? = some top) (hscopes : scopes ≠ []) (complete : Bool) :
    Sees (w.add top name).slots (scopes.mark name complete)
      (some ((name, w.slots.length) :: names)) env := by
  refine ⟨fun other distance hdistance => ?_, fun other hdistance => ?_⟩
  · rw [cell?_cons]
    by_cases heq : name = other
    · subst heq
      rw [Scopes.distance?_mark_self hscopes] at hdistance
      cases hdistance
      exact ⟨top, _, List.head?_eq_getElem? ▸ hhead, if_pos rfl, List.getElem?_concat_length⟩
    · rw [Scopes.distance?_mark_of_ne heq] at hdistance
      rw [if_neg heq]
      obtain ⟨a, cell, ha, hcell, hslot⟩ := h.bound other distance hdistance
      exact ⟨a, cell, ha, hcell, (w.extends_add top name).slot hslot⟩
  · rw [cell?_cons]
    by_cases heq : name = other
    · subst heq
      rw [Scopes.distance?_mark_self hscopes] at hdistance
      cases hdistance
    · rw [Scopes.distance?_mark_of_ne heq] at hdistance
      rw [if_neg heq]
      exact h.free other hdistance

/-- A declaration of a new name: in a scope it has a cell of its own from now on, which is
in the innermost frame. -/
theorem Here.declare (hhere : Here w m scopes visible top env) (h : Agrees w t m sink)
    (hnew : scopes.declaresInnermost name = false) (complete : Bool) :
    ∃ w' t' behind x, declare visible name t = (.done (behind, x), t') ∧ Later top w m w' m ∧
      Agrees w' t' m sink ∧ Here w' m (scopes.mark name complete) behind top env ∧
      Stands w'.slots x top name := by
  cases visible with
  | none =>
      obtain rfl := hhere.outside.mp rfl
      obtain rfl := hhere.global.mpr rfl
      exact ⟨w, t, none, .global name, rfl, .refl _ _ _, h, hhere, .global name⟩
  | some names =>
      have hscopes : scopes ≠ [] := by
        intro hnil
        cases hhere.outside.mpr hnil
      have hmarked : scopes.mark name complete ≠ [] := by
        rwa [ne_eq, Scopes.mark_eq_nil_iff]
      have hlocal : 0 < top := Nat.pos_of_ne_zero fun hzero => hscopes (hhere.global.mp hzero)
      have hfree : (top, name) ∉ w.slots := by
        intro hplace
        rw [hhere.fresh name hplace] at hnew
        cases hnew
      have hlater : Later top w m (w.add top name) m := by
        refine ⟨rfl, List.prefix_append _ _, Nat.le_refl _, fun place hplace => ?_⟩
        refine (List.mem_append.mp hplace).imp_right fun hplace => ?_
        exact Nat.le_of_eq (congrArg Prod.fst (List.mem_singleton.mp hplace)).symm
      have hsees : Sees (w.add top name).slots (scopes.mark name complete)
          (some ((name, t.cells.size) :: names)) env := by
        rw [h.cells]
        exact hhere.sees.declare hhere.head hscopes complete
      refine ⟨w.add top name, { t with cells := t.cells.push none },
        some ((name, t.cells.size) :: names), .cell t.cells.size, rfl, hlater,
        h.add hlocal hhere.size hfree,
        ⟨hsees, ?_, ?_, hhere.head, hhere.size, fun other hplace => ?_⟩, .cell ?_⟩
      · simp [hmarked]
      · rw [hhere.global]
        simp [hmarked, hscopes]
      · cases scopes with
        | nil => exact absurd rfl hscopes
        | cons own outer =>
            rw [Scopes.mark, Scopes.declaresInnermost, Bindings.binds_insert]
            rcases List.mem_append.mp hplace with hplace | hplace
            · rw [show own.binds other = true from hhere.fresh other hplace, Bool.or_true]
            · cases List.mem_singleton.mp hplace
              simp
      · rw [Layout.add, h.cells, List.getElem?_concat_length]

end Declarations

/-! ### Scopes of their own -/

section Frames

variable {w : Layout} {t : Store} {m : Memory} {sink : Machine.Sink} {scopes : Scopes}
  {visible : Visible} {env : Env}

/-- A new scope, for which the machine has a new frame. -/
theorem Sees.open (hsees : Sees w.slots scopes visible env) (h : Agrees w t m sink) :
    Here w (m.newFrame []).2 ([] :: scopes) visible.inside m.frames.size (m.frames.size :: env) := by
  refine ⟨hsees.inside _, by simp [Visible.inside], ?_, rfl, ?_, fun name hplace => ?_⟩
  · simp [Nat.ne_of_gt h.globals]
  · rw [Memory.size_newFrame]
    exact Nat.lt_succ_self _
  · exact absurd (h.placed _ hplace).2 (Nat.lt_irrefl _)

theorem later_newFrame (bound : Address) (w : Layout) (m : Memory) (contents : Bindings Value) :
    Later bound w m w (m.newFrame contents).2 := by
  refine ⟨rfl, List.prefix_refl _, ?_, fun _ hplace => Or.inl hplace⟩
  rw [Memory.size_newFrame]
  exact Nat.le_succ _

/-- Names bound one after the other make the frame that binds them all. -/
theorem bindAt_newFrame (m : Memory) (contents : Bindings Value) (name : String) (v : Value) :
    (m.newFrame contents).2.bindAt m.frames.size name v
      = (m.newFrame (contents.insert name v)).2 := by
  simp only [Memory.newFrame, Memory.bindAt]
  congr 1
  refine Array.ext (by simp) fun i hi hi' => ?_
  simp only [Array.getElem_modify, Array.getElem_push]
  by_cases hlt : i < m.frames.size
  · simp [hlt, Nat.ne_of_gt hlt]
  · have heq : m.frames.size = i := by
      simp only [Array.size_push] at hi'
      omega
    simp [heq]

theorem Here.inside_eq {names : Names} {top : Address}
    (h : Here w m (names :: scopes) visible top env) : visible.inside = visible := by
  cases visible with
  | none => cases h.outside.mp rfl
  | some names => rfl

/-- The same name, with alike values. -/
def EntryAlike (w : Layout) (entry : String × Value Visible) (entry' : String × Value) : Prop :=
  entry.1 = entry'.1 ∧ Alike w entry.2 entry'.2

theorem bindAll_inside (visible : Visible) (row : List (String × Value Visible)) :
    bindAll visible.inside row = bindAll visible row := by
  cases row <;> rfl

/-- The frame that the machine makes at once has the variables that the reference declares
one after the other. -/
theorem bindAll_agrees {row : List (String × Value Visible)} :
    ∀ {row' : List (String × Value)} {w : Layout} {t : Store} {names : Names}
      {contents : Bindings Value} {visible : Visible},
      List.Forall₂ (EntryAlike w) row row' → (row.map Prod.fst).Nodup →
      (∀ entry ∈ row, names.binds entry.1 = false) →
      Agrees w t (m.newFrame contents).2 sink →
      Here w (m.newFrame contents).2 (names :: scopes) visible m.frames.size
        (m.frames.size :: env) →
      ∃ w' t' behind, bindAll visible row t = (.done behind, t') ∧
        Later m.frames.size w m w' m ∧
        Agrees w' t'
          (m.newFrame (row'.foldl (fun contents e => contents.insert e.1 e.2) contents)).2 sink ∧
        Here w' (m.newFrame (row'.foldl (fun contents e => contents.insert e.1 e.2) contents)).2
          (row.foldl (fun names e => names.insert e.1 true) names :: scopes) behind m.frames.size
          (m.frames.size :: env) := by
  induction row with
  | nil =>
      intro row' w t names contents visible hrow _ _ hagrees hhere
      cases hrow
      exact ⟨w, t, visible, by rw [bindAll, hhere.inside_eq]; rfl, .refl _ _ _, hagrees, hhere⟩
  | cons entry rest ih =>
      intro row' w t names contents visible hrow hnodup hnew hagrees hhere
      obtain ⟨name, v⟩ := entry
      cases hrow with
      | @cons _ entry' _ rest' hentry hrest =>
      obtain ⟨name', v'⟩ := entry'
      obtain ⟨rfl, hv⟩ := hentry
      obtain ⟨hname, hdistinct⟩ := List.nodup_cons.mp hnodup
      obtain ⟨w₁, t₁, behind₁, x, hdeclare, hlater₁, hagrees₁, hhere₁, hstands⟩ :=
        hhere.declare hagrees (hnew _ List.mem_cons_self) true
      have hlater₁ : Later m.frames.size w m w₁ m :=
        ⟨hlater₁.resolution, hlater₁.slots, Nat.le_refl _, hlater₁.only⟩
      have hagrees₂ := hagrees₁.put hstands (hv.extend hlater₁.extends)
      rw [bindAt_newFrame] at hagrees₂
      have hsame : Later (m.frames.size + 1) w₁ (m.newFrame contents).2 w₁
          (m.newFrame (contents.insert name v')).2 :=
        .same (by rw [Memory.size_newFrame, Memory.size_newFrame])
      have hhere₂ := hhere₁.later hsame
      have hnew₂ : ∀ e ∈ rest, (Bindings.insert name true names).binds e.1 = false := by
        intro e he
        have hne : name ≠ e.1 := fun heq => hname (List.mem_map.mpr ⟨e, he, heq.symm⟩)
        rw [Bindings.binds_insert, decide_eq_false hne, Bool.false_or]
        exact hnew e (List.mem_cons_of_mem _ he)
      obtain ⟨w', t', behind, hbind, hlater, hagrees', hhere'⟩ :=
        ih (hrest.imp fun _ _ he => ⟨he.1, he.2.extend hlater₁.extends⟩) hdistinct hnew₂ hagrees₂
          hhere₂
      refine ⟨w', t', behind, ?_, hlater₁.trans hlater, hagrees', hhere'⟩
      rw [bindAll, hhere.inside_eq, bind_of_done hdeclare]
      exact hbind

/-- A new scope with variables that have values from the start. -/
theorem Sees.open_with {row : List (String × Value Visible)} {row' : List (String × Value)}
    (hsees : Sees w.slots scopes visible env) (h : Agrees w t m sink)
    (hrow : List.Forall₂ (EntryAlike w) row row') (hnodup : (row.map Prod.fst).Nodup) :
    ∃ w' t' behind, bindAll visible row t = (.done behind, t') ∧
      Later m.frames.size w m w'
        (m.newFrame (row'.foldl (fun contents e => contents.insert e.1 e.2) [])).2 ∧
      Agrees w' t' (m.newFrame (row'.foldl (fun contents e => contents.insert e.1 e.2) [])).2 sink ∧
      Here w' (m.newFrame (row'.foldl (fun contents e => contents.insert e.1 e.2) [])).2
        (row.foldl (fun names e => names.insert e.1 true) [] :: scopes) behind m.frames.size
        (m.frames.size :: env) := by
  obtain ⟨w', t', behind, hbind, hlater, hagrees, hhere⟩ :=
    bindAll_agrees hrow hnodup (fun _ _ => rfl) h.newFrame (hsees.open h)
  rw [bindAll_inside] at hbind
  exact ⟨w', t', behind, hbind, hlater.trans (later_newFrame _ _ _ _), hagrees, hhere⟩

end Frames

/-! ### Methods -/

section Methods

variable {w : Layout} {t : Store} {m : Memory} {sink : Machine.Sink} {method : Closure Visible}
  {method' : Closure} {this : Value Visible} {this' : Value}

/-- Binding a method to an instance. -/
theorem MethodAlike.bind (hmethod : MethodAlike w method method') (hthis : Alike w this this')
    (h : Agrees w t m sink) :
    ∃ w' t' closure, bindMethod method this t = (.done closure, t') ∧
      Later m.frames.size w m w' (m.bindMethod method' this').2 ∧
      Agrees w' t' (m.bindMethod method' this').2 sink ∧
      FunctionAlike w' closure (m.bindMethod method' this').1 := by
  obtain ⟨scopes, hsees, hresolved⟩ := hmethod.shown
  have hrow : List.Forall₂ (EntryAlike w) [("this", this)] [("this", this')] :=
    .cons ⟨rfl, hthis⟩ .nil
  obtain ⟨w', t', behind, hbind, hlater, hagrees, hhere⟩ := hsees.open_with h hrow (by simp)
  refine ⟨w', t', { method with env := behind }, ?_, hlater, hagrees, hmethod.declaration,
    hmethod.isInitializer, thisNames :: scopes, hhere.sees, ?_, fun _ => rfl⟩
  · rw [bindMethod, bind_of_done hbind]
    rfl
  · exact hresolved.extend hlater.extends.resolution

/-- The same, as a value of its own. -/
theorem MethodAlike.new (hmethod : MethodAlike w method method') (hthis : Alike w this this')
    (h : Agrees w t m sink) :
    ∃ w' t' v, newMethod method this t = (.done v, t') ∧
      Later m.frames.size w m w' (m.newMethod method' this').2 ∧
      Agrees w' t' (m.newMethod method' this').2 sink ∧
      Alike w' v (m.newMethod method' this').1 := by
  obtain ⟨w', t', closure, hbind, hlater, hagrees, halike⟩ := hmethod.bind hthis h
  refine ⟨w', _, .function t'.nextIdentity closure, ?_,
    ⟨hlater.resolution, hlater.slots, hlater.size, hlater.only⟩, hagrees.newIdentity, ?_⟩
  · rw [newMethod, bind_of_done hbind]
    rfl
  · rw [hagrees.nextIdentity]
    exact .function _ halike

end Methods

end Lox.Lexical
