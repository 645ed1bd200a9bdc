/-
The store and the memory.

A store agrees with a memory in a layout if every variable has alike values in both: in
its cell and in the frame where the layout says the cell is, and the globals by name.  A
name that some frame binds always has a cell, so a name without one is not bound yet, and
a frame that binds it later gives it the cell that was declared for it.

Both change in step.  The scopes at a place say which names the innermost frame can have
cells for; a declaration may therefore put a new cell there, and nothing but a declaration
at this very place does.
-/
import Lox.Proofs.Lexical.Alike
import Lox.Proofs.Machine.Frames

namespace Lox.Lexical

open Scope

/-! ### Where the variables are -/

/-- The frame that a variable is in, and its name there. -/
inductive Stands (slots : Slots) : Variable → Address → String → Prop
  | cell {cell : Cell} {a : Address} {name : String} (h : slots[cell]? = some (a, name)) :
      Stands slots (.cell cell) a name
  | global (name : String) : Stands slots (.global name) 0 name

theorem Stands.extend {w w' : Layout} {x : Variable} {a : Address} {name : String}
    (h : Stands w.slots x a name) (hext : w.Extends w') : Stands w'.slots x a name := by
  cases h with
  | cell hslot => exact .cell (hext.slot hslot)
  | global name => exact .global name

section Sees

variable {slots : Slots} {scopes : Scopes} {visible : Visible} {env : Env} {name : String}

theorem Sees.stands_bound (h : Sees slots scopes visible env) {distance : Nat}
    (hdistance : scopes.distance? name = some distance) :
    ∃ a, env[distance]? = some a ∧ Stands slots (visible.meaning name) a name := by
  obtain ⟨a, cell, ha, hcell, hslot⟩ := h.bound name distance hdistance
  refine ⟨a, ha, ?_⟩
  rw [Visible.meaning, hcell]
  exact .cell hslot

theorem Sees.stands_free (h : Sees slots scopes visible env)
    (hdistance : scopes.distance? name = none) : Stands slots (visible.meaning name) 0 name := by
  rw [Visible.meaning, h.free name hdistance]
  exact .global name

/-- Inside of a new scope everything is still visible, one frame further out. -/
theorem Sees.inside (h : Sees slots scopes visible env) (a : Address) :
    Sees slots ([] :: scopes) visible.inside (a :: env) := by
  refine ⟨fun name distance hdistance => ?_, fun name hdistance => ?_⟩
  · rw [Scopes.distance?_push] at hdistance
    obtain ⟨outside, houtside, rfl⟩ := Option.map_eq_some_iff.mp hdistance
    obtain ⟨b, cell, hb, hcell, hslot⟩ := h.bound name outside houtside
    exact ⟨b, cell, by simpa using hb, hcell, hslot⟩
  · rw [Scopes.distance?_push] at hdistance
    exact h.free name (Option.map_eq_none_iff.mp hdistance)

end Sees

/-! ### Agreement -/

/-- The variables, the instances and whatever else can change are the same in both. -/
structure Agrees (w : Layout) (t : Store) (m : Memory) (sink : Machine.Sink) : Prop where
  cells : t.cells.size = w.slots.length
  nodup : w.slots.Nodup
  placed : ∀ place ∈ w.slots, 0 < place.1 ∧ place.1 < m.frames.size
  known : ∀ a name, 0 < a → (m.frame a).binds name → (a, name) ∈ w.slots
  globals : 0 < m.frames.size
  values : ∀ x a name, Stands w.slots x a name →
    Option.Rel (Alike w) (t.value? x) ((m.frame a).get? name)
  instances : t.fields.size = m.fields.size
  fields : ∀ address name, Option.Rel (Alike w) (t.field? address name) (m.field? address name)
  nextIdentity : t.nextIdentity = m.nextIdentity
  readings : t.readings = m.readings
  sink : t.sink = sink

section Changes

variable {w : Layout} {t : Store} {m : Memory} {sink : Machine.Sink} {x y : Variable}
  {a : Address} {name : String} {v : Value Visible} {v' : Value}

theorem Agrees.lt_size (h : Agrees w t m sink) (hx : Stands w.slots x a name) :
    a < m.frames.size := by
  cases hx with
  | cell hslot => exact (h.placed _ (List.mem_of_getElem? hslot)).2
  | global => exact h.globals

/-- No two variables are in one place. -/
theorem Agrees.stands_unique (h : Agrees w t m sink) (hx : Stands w.slots x a name)
    (hy : Stands w.slots y a name) : x = y := by
  cases hx with
  | cell hslot =>
      cases hy with
      | cell hslot' =>
          have hlt := (List.getElem?_eq_some_iff.mp hslot).1
          rw [(List.getElem?_inj hlt h.nodup).mp (hslot.trans hslot'.symm)]
      | global => exact absurd (h.placed _ (List.mem_of_getElem? hslot)).1 (Nat.lt_irrefl 0)
  | global =>
      cases hy with
      | cell hslot => exact absurd (h.placed _ (List.mem_of_getElem? hslot)).1 (Nat.lt_irrefl 0)
      | global => rfl

theorem Agrees.value?_put (h : Agrees w t m sink) (hx : Stands w.slots x a name) :
    (t.put x v).value? y = if x = y then some v else t.value? y := by
  cases hx with
  | cell hslot =>
      have hlt := (List.getElem?_eq_some_iff.mp hslot).1
      rw [← h.cells] at hlt
      cases y with
      | cell other =>
          simp only [Store.put, Store.value?, Array.getElem?_setIfInBounds, Variable.cell.injEq, hlt]
          split <;> rfl
      | global other => rw [if_neg (fun heq => Variable.noConfusion heq)]; rfl
  | global =>
      cases y with
      | cell other => rw [if_neg (fun heq => Variable.noConfusion heq)]; rfl
      | global other =>
          simp only [Store.put, Store.value?, Bindings.get?_insert, Variable.global.injEq]

/-- Giving a variable a value in the store is binding its name in the memory. -/
theorem Agrees.put (h : Agrees w t m sink) (hx : Stands w.slots x a name) (hv : Alike w v v') :
    Agrees w (t.put x v) (m.bindAt a name v') sink where
  cells := by
    cases x with
    | cell cell => exact Array.size_setIfInBounds.trans h.cells
    | global name => exact h.cells
  nodup := h.nodup
  placed := by
    rw [Memory.size_bindAt]
    exact h.placed
  known := by
    intro b other hlocal hbinds
    rw [Memory.binds_bindAt] at hbinds
    rcases Bool.or_eq_true_iff.mp hbinds with hsame | hbinds
    · obtain ⟨rfl, -, rfl⟩ := of_decide_eq_true hsame
      cases hx with
      | cell hslot => exact List.mem_of_getElem? hslot
      | global => exact absurd hlocal (Nat.lt_irrefl 0)
    · exact h.known b other hlocal hbinds
  globals := by
    rw [Memory.size_bindAt]
    exact h.globals
  values := by
    intro y b other hy
    rw [h.value?_put hx, Memory.frame_bindAt]
    by_cases hplace : a = b ∧ name = other
    · obtain ⟨rfl, rfl⟩ := hplace
      rw [if_pos (h.stands_unique hx hy), if_pos ⟨rfl, h.lt_size hx⟩, Bindings.get?_insert_self]
      exact .some hv
    · have hne : x ≠ y := by
        rintro rfl
        refine hplace ?_
        cases hx with
        | cell hslot =>
            cases hy with
            | cell hslot' =>
                rw [hslot] at hslot'
                cases hslot'
                exact ⟨rfl, rfl⟩
        | global =>
            cases hy
            exact ⟨rfl, rfl⟩
      rw [if_neg hne]
      split
      · rename_i hframe
        have hname : name ≠ other := fun heq => hplace ⟨hframe.1, heq⟩
        rw [Bindings.get?_insert_of_ne hname]
        exact h.values y b other hy
      · exact h.values y b other hy
  instances := by
    cases x <;> exact h.instances
  fields := by
    cases x <;> exact h.fields
  nextIdentity := by
    cases x <;> exact h.nextIdentity
  readings := by
    cases x <;> exact h.readings
  sink := by
    cases x <;> exact h.sink

/-- With one more cell, for a name in a frame. -/
def Layout.add (w : Layout) (a : Address) (name : String) : Layout :=
  { w with slots := w.slots ++ [(a, name)] }

theorem Layout.extends_add (w : Layout) (a : Address) (name : String) :
    w.Extends (w.add a name) :=
  ⟨.refl _, List.prefix_append _ _⟩

/-- A cell may be added for a name that has none yet. -/
theorem Agrees.add (h : Agrees w t m sink) (hlocal : 0 < a) (hsize : a < m.frames.size)
    (hnew : (a, name) ∉ w.slots) :
    Agrees (w.add a name) { t with cells := t.cells.push none } m sink where
  cells := by simp [Layout.add, h.cells]
  nodup := by
    rw [Layout.add, List.nodup_append]
    refine ⟨h.nodup, by simp, fun place hplace other hother heq => ?_⟩
    rw [List.mem_singleton] at hother
    rw [heq, hother] at hplace
    exact hnew hplace
  placed := by
    intro place hplace
    rcases List.mem_append.mp hplace with hplace | hplace
    · exact h.placed place hplace
    · rw [List.mem_singleton.mp hplace]
      exact ⟨hlocal, hsize⟩
  known := fun b other hb hbinds => List.mem_append_left _ (h.known b other hb hbinds)
  globals := h.globals
  values := by
    have hext := w.extends_add a name
    intro x b other hx
    cases hx with
    | @cell cell _ _ hslot =>
        by_cases hold : cell < w.slots.length
        · have hslot' : w.slots[cell]? = some (b, other) := by
            rwa [Layout.add, List.getElem?_append_left hold] at hslot
          have hvalue := h.values _ _ _ (.cell hslot')
          have hne : cell ≠ t.cells.size := by
            rw [h.cells]
            exact Nat.ne_of_lt hold
          simp only [Store.value?, Array.getElem?_push, if_neg hne] at hvalue ⊢
          exact relOption_imp (fun _ _ halike => halike.extend hext) hvalue
        · rw [Layout.add, List.getElem?_append_right (Nat.le_of_not_lt hold),
            List.getElem?_singleton] at hslot
          split at hslot
          · rename_i hlast
            cases hslot
            have hnone : (m.frame a).get? name = none := by
              by_contra hsome
              refine hnew (h.known a name hlocal ?_)
              rwa [Bindings.binds, Option.isSome_iff_ne_none]
            have hcell : cell = t.cells.size := by
              rw [h.cells]
              exact Nat.le_antisymm (Nat.sub_eq_zero_iff_le.mp hlast) (Nat.le_of_not_lt hold)
            rw [hnone, Store.value?, hcell, Array.getElem?_push_size]
            exact .none
          · cases hslot
    | global =>
        exact relOption_imp (fun _ _ halike => halike.extend hext) (h.values _ _ _ (.global other))
  instances := h.instances
  fields := fun address other =>
    relOption_imp (fun _ _ halike => halike.extend (w.extends_add a name)) (h.fields address other)
  nextIdentity := h.nextIdentity
  readings := h.readings
  sink := h.sink

/-- A frame without names makes no difference. -/
theorem Agrees.newFrame (h : Agrees w t m sink) : Agrees w t (m.newFrame []).2 sink := by
  have hsize : m.frames.size ≤ (m.newFrame []).2.frames.size := by
    rw [Memory.size_newFrame]
    exact Nat.le_succ _
  refine { h with placed := ?_, known := ?_, globals := ?_, values := ?_ }
  · intro place hplace
    exact ⟨(h.placed place hplace).1, Nat.lt_of_lt_of_le (h.placed place hplace).2 hsize⟩
  · intro b other hb hbinds
    rw [Memory.frame_newFrame] at hbinds
    split at hbinds
    · exact absurd hbinds (by simp [Bindings.binds])
    · exact h.known b other hb hbinds
  · exact Nat.lt_of_lt_of_le h.globals hsize
  · intro y b other hy
    rw [Memory.frame_newFrame, if_neg (Nat.ne_of_lt (h.lt_size hy))]
    exact h.values y b other hy

theorem Agrees.newIdentity (h : Agrees w t m sink) :
    Agrees w { t with nextIdentity := t.nextIdentity + 1 } m.newIdentity.2 sink :=
  { h with nextIdentity := congrArg (· + 1) h.nextIdentity }

theorem Agrees.readClock (h : Agrees w t m sink) :
    Agrees w { t with readings := t.readings + 1 } { m with readings := m.readings + 1 } sink :=
  { h with readings := congrArg (· + 1) h.readings }

theorem Agrees.written (h : Agrees w t m sink) (sink' : Machine.Sink) :
    Agrees w { t with sink := sink' } m sink' :=
  { h with sink := rfl }

theorem field?_push (t : Store) (address : Address) (name : String) :
    Store.field? { t with fields := t.fields.push [] } address name = t.field? address name := by
  simp only [Store.field?, Array.getD_eq_getD_getElem?, Array.getElem?_push]
  by_cases heq : address = t.fields.size <;> simp [heq]

theorem Agrees.newObject (h : Agrees w t m sink) :
    Agrees w { t with fields := t.fields.push [] } m.newObject.2 sink := by
  refine { h with instances := ?_, fields := fun address name => ?_ }
  · simp [Memory.newObject, h.instances]
  · rw [Memory.field?_newObject, field?_push]
    exact h.fields address name

theorem field?_modify (t : Store) (address other : Address) (name property : String)
    (v : Value Visible) :
    Store.field? { t with fields := t.fields.modify address (Bindings.insert name v) } other property
      = if address = other ∧ address < t.fields.size ∧ name = property then some v
        else t.field? other property := by
  simp only [Store.field?, Array.getD_eq_getD_getElem?, Array.getElem?_modify]
  by_cases haddress : address = other
  · subst haddress
    by_cases hlt : address < t.fields.size
    · simp [hlt, Bindings.get?_insert]
    · simp [hlt]
  · simp [haddress]

theorem Agrees.setField (h : Agrees w t m sink) (address : Address) (name : String)
    (hv : Alike w v v') :
    Agrees w { t with fields := t.fields.modify address (Bindings.insert name v) }
      (m.setField address name v') sink := by
  refine { h with instances := ?_, fields := fun other property => ?_ }
  · simp [Memory.setField, h.instances]
  · rw [Memory.field?_setField, field?_modify, h.instances]
    split
    · exact Option.Rel.some hv
    · exact h.fields other property

end Changes

end Lox.Lexical
