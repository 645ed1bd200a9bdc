/-
Open frames and open scopes.

While a program runs, its open frames match the scopes of the place it has come to: one
frame for each scope, and outside of all the frame of the globals.  A frame binds every
name that its scope has declared, except a variable whose initializer is being read;
that one is bound when its initializer has a value.

A function goes on holding the frames it was declared in, and later declarations may
bind more names in them.  Only of the frames open just now is it true that the innermost
one binds nothing else than what its scope has declared so far.
-/
import Lox.Proofs.Scope.Scopes
import Lox.Value.Memory

namespace Lox

open Scope

/-! ### How the memory changes

Frames are never taken away and names never unbound.  One frame at most, the one that a
declaration is for, has names added to it; writing to a variable adds none. -/

namespace Memory

/-- What a step may do to the frames: new names only in the frame `target`, if any, and
in new frames. -/
structure Grows (target : Option Address) (m m' : Memory) : Prop where
  size : m.frames.size ≤ m'.frames.size
  keeps : ∀ a name, (m.frame a).binds name → (m'.frame a).binds name
  only : ∀ a name, a < m.frames.size → a ∉ target → (m'.frame a).binds name →
    (m.frame a).binds name

variable {m m' m'' : Memory} {target : Option Address} {a : Address} {name : String}
  {value : Value}

theorem Grows.refl (target : Option Address) (m : Memory) : Grows target m m :=
  ⟨Nat.le_refl _, fun _ _ h => h, fun _ _ _ _ h => h⟩

theorem Grows.trans (h : Grows target m m') (h' : Grows target m' m'') : Grows target m m'' := by
  refine ⟨Nat.le_trans h.size h'.size, fun a name hbinds => ?_, fun a name ha hnot hbinds => ?_⟩
  · exact h'.keeps a name (h.keeps a name hbinds)
  · exact h.only a name ha hnot (h'.only a name (Nat.lt_of_lt_of_le ha h.size) hnot hbinds)

/-- Memories with the same frames differ in what frames are not about. -/
theorem Grows.of_frames (h : m'.frames = m.frames) : Grows target m m' := by
  have hframe : ∀ a, m'.frame a = m.frame a := fun a => by rw [frame, frame, h]
  refine ⟨Nat.le_of_eq (by rw [h]), fun a name hbinds => ?_, fun a name _ _ hbinds => ?_⟩
  · rwa [hframe]
  · rwa [hframe] at hbinds

theorem lt_size_of_binds (h : (m.frame a).binds name) : a < m.frames.size := by
  by_cases ha : a < m.frames.size
  · exact ha
  · have hempty : m.frame a = [] := by
      rw [frame, Array.getD_eq_getD_getElem?, Array.getElem?_eq_none (Nat.le_of_not_lt ha)]
      rfl
    rw [hempty] at h
    exact absurd h (by simp [Bindings.binds])

theorem binds_bindAt (m : Memory) (a b : Address) (name other : String) (value : Value) :
    ((m.bindAt a name value).frame b).binds other
      = (decide (a = b ∧ a < m.frames.size ∧ name = other) || (m.frame b).binds other) := by
  rw [frame_bindAt]
  by_cases hab : a = b ∧ a < m.frames.size
  · rw [if_pos hab, Bindings.binds_insert]
    simp only [hab.1, hab.1 ▸ hab.2, true_and]
  · rw [if_neg hab]
    have hnot : ¬(a = b ∧ a < m.frames.size ∧ name = other) := fun h => hab ⟨h.1, h.2.1⟩
    simp [hnot]

theorem size_bindAt (m : Memory) (a : Address) (name : String) (value : Value) :
    (m.bindAt a name value).frames.size = m.frames.size :=
  Array.size_modify

/-- Binding a name in a frame is a declaration there. -/
theorem grows_bindAt (m : Memory) (a : Address) (name : String) (value : Value) :
    Grows (some a) m (m.bindAt a name value) := by
  refine ⟨Nat.le_of_eq (size_bindAt m a name value).symm, fun b other hbinds => ?_,
    fun b other _ hnot hbinds => ?_⟩
  · rw [binds_bindAt, hbinds, Bool.or_true]
  · have hne : ¬(a = b ∧ a < m.frames.size ∧ name = other) := by
      rintro ⟨rfl, -⟩
      exact hnot rfl
    rwa [binds_bindAt, decide_eq_false hne, Bool.false_or] at hbinds

/-- Writing to a variable that there is adds no name. -/
theorem grows_bindAt_of_binds (h : (m.frame a).binds name) :
    Grows target m (m.bindAt a name value) := by
  refine ⟨Nat.le_of_eq (size_bindAt m a name value).symm, fun b other hbinds => ?_,
    fun b other _ _ hbinds => ?_⟩
  · rw [binds_bindAt, hbinds, Bool.or_true]
  · rw [binds_bindAt] at hbinds
    rcases Bool.or_eq_true_iff.mp hbinds with hsame | hbinds
    · obtain ⟨rfl, -, rfl⟩ := of_decide_eq_true hsame
      exact h
    · exact hbinds

theorem size_newFrame (m : Memory) (contents : Bindings Value) :
    (m.newFrame contents).2.frames.size = m.frames.size + 1 :=
  Array.size_push _

theorem grows_newFrame (m : Memory) (contents : Bindings Value) :
    Grows target m (m.newFrame contents).2 := by
  refine ⟨by rw [size_newFrame]; exact Nat.le_succ _, fun a name hbinds => ?_,
    fun a name ha _ hbinds => ?_⟩
  · have hne : a ≠ m.frames.size := Nat.ne_of_lt (lt_size_of_binds hbinds)
    rwa [frame_newFrame, if_neg hne]
  · rwa [frame_newFrame, if_neg (Nat.ne_of_lt ha)] at hbinds

end Memory

/-! ### Frames that match scopes -/

/-- One frame for each scope, none of them that of the globals, which comes last. -/
inductive Framed (size : Nat) : Scopes → Env → Prop
  | globals (hsize : 0 < size) : Framed size [] Memory.globals
  | scope {names : Names} {scopes : Scopes} {a : Address} {env : Env} (hlocal : 0 < a)
      (hsize : a < size) (h : Framed size scopes env) : Framed size (names :: scopes) (a :: env)

namespace Framed

variable {size size' : Nat} {scopes : Scopes} {env : Env}

theorem mono (h : Framed size scopes env) (hle : size ≤ size') : Framed size' scopes env := by
  induction h with
  | globals hsize => exact .globals (Nat.lt_of_lt_of_le hsize hle)
  | scope hlocal hsize _ ih => exact .scope hlocal (Nat.lt_of_lt_of_le hsize hle) ih

/-- There is an innermost frame. -/
theorem head (h : Framed size scopes env) : ∃ a outer, env = a :: outer ∧ a < size := by
  cases h with
  | globals hsize => exact ⟨0, [], rfl, hsize⟩
  | scope _ hsize _ => exact ⟨_, _, rfl, hsize⟩

theorem mark (h : Framed size scopes env) (name : String) (complete : Bool) :
    Framed size (scopes.mark name complete) env := by
  cases h with
  | globals hsize => exact .globals hsize
  | scope hlocal hsize h => exact .scope hlocal hsize h

/-- Marking a name again makes no difference to the frames. -/
theorem remark {name : String} {complete : Bool} (h : Framed size (scopes.mark name complete) env)
    (complete' : Bool) : Framed size (scopes.mark name complete') env := by
  cases scopes with
  | nil => exact h
  | cons names outer =>
      cases h with
      | scope hlocal hsize h => exact .scope hlocal hsize h

/-- If the innermost frame is that of the globals, there is no other. -/
theorem eq_globals {outer : Env} (h : Framed size scopes (0 :: outer)) :
    scopes = [] ∧ outer = [] := by
  cases h with
  | globals => exact ⟨rfl, rfl⟩
  | scope hlocal => exact absurd hlocal (Nat.lt_irrefl 0)

end Framed

/-- Every name that the scopes have declared is bound in the frame of its scope. -/
structure Matches (m : Memory) (scopes : Scopes) (env : Env) : Prop where
  framed : Framed m.frames.size scopes env
  bound : ∀ name distance, scopes.distance? name = some distance →
    scopes.isInitializing name = false → ∃ a, env[distance]? = some a ∧ (m.frame a).binds name

/-- The frames match, and the innermost one, `top`, binds nothing else. -/
structure Current (m : Memory) (scopes : Scopes) (top : Address) (env : Env) : Prop extends
    Matches m scopes env where
  head : env.head? = some top
  exact : scopes ≠ [] → ∀ name, (m.frame top).binds name →
    scopes.distance? name = some 0 ∧ scopes.isInitializing name = false

section Changes

variable {m m' : Memory} {target : Option Address} {scopes : Scopes} {env : Env}
  {top : Address} {name : String}

theorem Matches.grow (h : Matches m scopes env) (hgrows : m.Grows target m') :
    Matches m' scopes env := by
  refine ⟨h.framed.mono hgrows.size, fun name distance hdistance hread => ?_⟩
  obtain ⟨a, ha, hbinds⟩ := h.bound name distance hdistance hread
  exact ⟨a, ha, hgrows.keeps a name hbinds⟩

theorem Current.lt_size (h : Current m scopes top env) : top < m.frames.size := by
  obtain ⟨a, outer, rfl, hsize⟩ := h.framed.head
  obtain rfl : a = top := Option.some.inj h.head
  exact hsize

/-- What happens in other frames does not matter. -/
theorem Current.grow (h : Current m scopes top env) (hgrows : m.Grows target m')
    (hother : top ∉ target) : Current m' scopes top env := by
  refine ⟨h.toMatches.grow hgrows, h.head, fun hscopes name hbinds => ?_⟩
  exact h.exact hscopes name (hgrows.only top name h.lt_size hother hbinds)

/-- A frame may be opened for a scope, if it binds the names of the scope. -/
theorem Matches.open (h : Matches m scopes env) (hsettled : scopes.Settled) {names : Names}
    {contents : Bindings Value} (hbinds : ∀ name, names.binds name = contents.binds name)
    (hnames : ∀ name, names.get? name ≠ some false) :
    Current (m.newFrame contents).2 (names :: scopes) m.frames.size (m.frames.size :: env) := by
  have hframe : (m.newFrame contents).2.frame m.frames.size = contents := by
    rw [Memory.frame_newFrame, if_pos rfl]
  have hgrows : m.Grows none (m.newFrame contents).2 := m.grows_newFrame contents
  have hread : ∀ name, Scopes.isInitializing name (names :: scopes) = false := by
    intro name
    simp [Scopes.isInitializing, hnames name]
  have hglobals : 0 < m.frames.size := by
    obtain ⟨a, outer, -, hsize⟩ := h.framed.head
    exact Nat.zero_lt_of_lt hsize
  refine ⟨⟨.scope hglobals ?_ (h.framed.mono hgrows.size), fun name distance hdistance _ => ?_⟩,
    rfl, fun _ name hbound => ?_⟩
  · rw [Memory.size_newFrame]
    exact Nat.lt_succ_self _
  · rw [Scopes.distance?_cons] at hdistance
    by_cases hname : names.binds name
    · rw [if_pos hname] at hdistance
      obtain rfl := Option.some.inj hdistance
      exact ⟨m.frames.size, rfl, by rw [hframe, ← hbinds, hname]⟩
    · rw [if_neg hname] at hdistance
      obtain ⟨outside, houtside, rfl⟩ := Option.map_eq_some_iff.mp hdistance
      obtain ⟨a, ha, hbound⟩ := h.bound name outside houtside (hsettled name)
      exact ⟨a, by simpa using ha, hgrows.keeps a name hbound⟩
  · rw [hframe, ← hbinds] at hbound
    exact ⟨by rw [Scopes.distance?_cons, if_pos hbound], hread name⟩

/-- When a variable is declared, before its initializer is read. -/
theorem Current.declare (h : Current m scopes top env)
    (hnew : scopes.declaresInnermost name = false) :
    Current m (scopes.mark name false) top env := by
  refine ⟨⟨h.framed.mark name false, fun other distance hdistance hread => ?_⟩, h.head,
    fun hscopes other hbinds => ?_⟩
  · by_cases heq : name = other
    · subst heq
      cases scopes with
      | nil => exact h.bound name distance hdistance rfl
      | cons names outer => simp [Scopes.isInitializing_mark_self] at hread
    · rw [Scopes.distance?_mark_of_ne heq] at hdistance
      rw [Scopes.isInitializing_mark_of_ne heq] at hread
      exact h.bound other distance hdistance hread
  · have hscopes : scopes ≠ [] := fun hnil => hscopes (by rw [hnil]; rfl)
    obtain ⟨hdistance, hread⟩ := h.exact hscopes other hbinds
    by_cases heq : name = other
    · subst heq
      cases scopes with
      | nil => exact absurd rfl hscopes
      | cons names outer =>
          rw [Scopes.distance?_cons, show names.binds name = false from hnew] at hdistance
          simp at hdistance
    · rw [Scopes.distance?_mark_of_ne heq, Scopes.isInitializing_mark_of_ne heq]
      exact ⟨hdistance, hread⟩

/-- When a name is defined; until then its initializer may have been read. -/
theorem Current.define {complete : Bool} (h : Current m (scopes.mark name complete) top env)
    (value : Value) :
    m.Grows (some top) (m.define env name value) ∧
      Current (m.define env name value) (scopes.mark name true) top env := by
  have hsize := h.lt_size
  obtain ⟨a, outer, rfl, -⟩ := h.framed.head
  obtain rfl : a = top := Option.some.inj h.head
  have hgrows : m.Grows (some a) (m.define (a :: outer) name value) :=
    m.grows_bindAt a name value
  have hother : ∀ other, name ≠ other → (scopes.mark name true).isInitializing other
      = (scopes.mark name complete).isInitializing other := by
    intro other heq
    rw [Scopes.isInitializing_mark_of_ne heq, Scopes.isInitializing_mark_of_ne heq]
  refine ⟨hgrows, ⟨(h.framed.remark true).mono hgrows.size, fun other distance hdistance hread => ?_⟩,
    rfl, fun hscopes other hbinds => ?_⟩
  · by_cases heq : name = other
    · subst heq
      have hscopes : scopes ≠ [] := by
        rintro rfl
        simp [Scopes.mark, Scopes.distance?_nil] at hdistance
      rw [Scopes.distance?_mark_self hscopes] at hdistance
      obtain rfl := Option.some.inj hdistance
      exact ⟨a, rfl, by simp [Memory.define, Memory.binds_bindAt, hsize]⟩
    · rw [Scopes.distance?_remark complete] at hdistance
      rw [hother other heq] at hread
      obtain ⟨b, hb, hbinds⟩ := h.bound other distance hdistance hread
      exact ⟨b, hb, hgrows.keeps b other hbinds⟩
  · have hscopes : scopes ≠ [] := fun hnil => hscopes (by rw [hnil]; rfl)
    by_cases heq : name = other
    · subst heq
      exact ⟨Scopes.distance?_mark_self hscopes, by simp [Scopes.isInitializing_mark_self]⟩
    · rw [Scopes.distance?_remark complete, hother other heq]
      refine h.exact (fun hnil => hscopes (Scopes.mark_eq_nil_iff.mp hnil)) other ?_
      rw [Memory.define, Memory.binds_bindAt, decide_eq_false (fun hall => heq hall.2.2)] at hbinds
      exact hbinds

end Changes

end Lox
