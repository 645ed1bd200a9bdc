/-
Environments as a tree.

An environment is a row of frames: its own, and behind it the row of the environment that
it was made in.  Many environments may be made in one, so their rows end in the same
frames, and what is written to a frame through one of them is seen through all the others.

Two facts about the rows carry everything here.  The row behind an environment is that of
an environment again, and a frame is the own frame of one environment only.  So a frame
stands for an environment, and a binding in it is a place that every row through the frame
shares.
-/
import Lox.Machine.Step
import Lox.Proofs.Machine.Frames

namespace Lox

namespace Memory

/-! ### How a tree of environments is made -/

/-- What an attempt to assign leaves: the memory assigned to, or if there is nothing to
assign to, the memory as it was. -/
def tryAssign (m : Memory) (env : Env) (name : String) (value : Value) : Memory :=
  (m.assign? env name value).getD m

/-- What an attempt to assign so many frames out leaves. -/
def tryAssignAt (m : Memory) (env : Env) (distance : Nat) (name : String) (value : Value) :
    Memory :=
  (m.assignAt? env distance name value).getD m

/-- The memory and the environments in it after some operations on environments, where at
first there are none. -/
inductive Grown : Memory → List Env → Prop
  | start {m : Memory} (hframes : m.frames = #[]) : Grown m []
  | root {m : Memory} {envs : List Env} (h : Grown m envs) :
      Grown (m.newFrame []).2 ([(m.newFrame []).1] :: envs)
  | child {m : Memory} {envs : List Env} {env : Env} (h : Grown m envs) (henv : env ∈ envs) :
      Grown (m.newFrame []).2 (((m.newFrame []).1 :: env) :: envs)
  | define {m : Memory} {envs : List Env} {env : Env} (h : Grown m envs) (henv : env ∈ envs)
      (name : String) (value : Value) : Grown (m.define env name value) envs
  | assign {m : Memory} {envs : List Env} {env : Env} (h : Grown m envs) (henv : env ∈ envs)
      (name : String) (value : Value) : Grown (m.tryAssign env name value) envs
  | assignAt {m : Memory} {envs : List Env} {env : Env} (h : Grown m envs) (henv : env ∈ envs)
      (distance : Nat) (name : String) (value : Value) :
      Grown (m.tryAssignAt env distance name value) envs

/-- The rows are those of a tree of environments. -/
structure Forest (size : Nat) (envs : List Env) : Prop where
  row : ∀ env ∈ envs, ∃ a outer, env = a :: outer ∧ a < size ∧ (outer = [] ∨ outer ∈ envs)
  one : ∀ a outer outer', a :: outer ∈ envs → a :: outer' ∈ envs → outer = outer'

namespace Forest

variable {size : Nat} {envs : List Env} {outer : Env}

theorem empty (size : Nat) : Forest size [] :=
  ⟨by simp, by simp⟩

/-- A new frame is the own frame of no other environment. -/
theorem push (h : Forest size envs) (houter : outer = [] ∨ outer ∈ envs) :
    Forest (size + 1) ((size :: outer) :: envs) := by
  have hnew : ∀ rest, size :: rest ∉ envs := by
    intro rest hmem
    obtain ⟨a, _, heq, ha, -⟩ := h.row _ hmem
    exact absurd ((List.cons.inj heq).1 ▸ ha) (Nat.lt_irrefl _)
  refine ⟨fun env henv => ?_, fun a rest rest' hrest hrest' => ?_⟩
  · rcases List.mem_cons.mp henv with rfl | henv
    · exact ⟨size, outer, rfl, Nat.lt_succ_self _, houter.imp_right (List.mem_cons_of_mem _)⟩
    · obtain ⟨a, rest, rfl, ha, hrest⟩ := h.row env henv
      exact ⟨a, rest, rfl, Nat.lt_succ_of_lt ha, hrest.imp_right (List.mem_cons_of_mem _)⟩
  · rcases List.mem_cons.mp hrest with heq | hrest <;>
      rcases List.mem_cons.mp hrest' with heq' | hrest'
    · rw [(List.cons.inj heq).2, (List.cons.inj heq').2]
    · exact absurd ((List.cons.inj heq).1 ▸ hrest') (hnew _)
    · exact absurd ((List.cons.inj heq').1 ▸ hrest) (hnew _)
    · exact h.one a rest rest' hrest hrest'

theorem lt_size (h : Forest size envs) {a : Address} (henv : a :: outer ∈ envs) : a < size := by
  obtain ⟨b, rest, heq, hb, -⟩ := h.row _ henv
  exact (List.cons.inj heq).1 ▸ hb

/-- Behind an environment there is another, or nothing. -/
theorem behind (h : Forest size envs) {a : Address} (henv : a :: outer ∈ envs) :
    outer = [] ∨ outer ∈ envs := by
  obtain ⟨b, rest, heq, -, hrest⟩ := h.row _ henv
  exact (List.cons.inj heq).2 ▸ hrest

/-- So many frames out there is an environment, as long as there are frames. -/
theorem drop (h : Forest size envs) {env : Env} (henv : env ∈ envs) {distance : Nat}
    (hlt : distance < env.length) : env.drop distance ∈ envs := by
  induction distance generalizing env with
  | zero => exact henv
  | succ distance ih =>
      cases env with
      | nil => exact absurd hlt (Nat.not_lt_zero _)
      | cons a outer =>
          have hlt : distance < outer.length := Nat.lt_of_succ_lt_succ hlt
          rcases h.behind henv with rfl | houter
          · exact absurd hlt (Nat.not_lt_zero _)
          · exact ih houter hlt

end Forest

/-! ### Looking up, frame by frame -/

section Lookups

variable {m : Memory} {env outer : Env} {a : Address} {name : String} {value : Value}

/-- The environment on the row whose own frame is the first to bind a name. -/
inductive Nearest (m : Memory) (name : String) : Env → Env → Prop
  | here {env : Env} (hheld : (m.readAt? env 0 name).isSome) : Nearest m name env env
  | outward {a : Address} {outer holder : Env} (hnot : m.readAt? (a :: outer) 0 name = none)
      (h : Nearest m name outer holder) : Nearest m name (a :: outer) holder

@[simp] theorem readAt?_zero : m.readAt? (a :: outer) 0 name = (m.frame a).get? name :=
  rfl

@[simp] theorem readAt?_nil (distance : Nat) : m.readAt? [] distance name = none :=
  rfl

@[simp] theorem readAt?_succ (distance : Nat) :
    m.readAt? (a :: outer) (distance + 1) name = m.readAt? outer distance name := by
  rw [readAt?, readAt?, List.getElem?_cons_succ]

@[simp] theorem read?_nil : m.read? [] name = none :=
  rfl

theorem read?_cons : m.read? (a :: outer) name
    = (m.readAt? (a :: outer) 0 name).or (m.read? outer name) := by
  rw [readAt?_zero, read?, List.findSome?_cons]
  cases (m.frame a).get? name <;> rfl

/-- To look so many frames out is to look at the own frame of the environment there. -/
theorem readAt?_eq_drop (m : Memory) (env : Env) (distance : Nat) (name : String) :
    m.readAt? env distance name = m.readAt? (env.drop distance) 0 name := by
  rw [readAt?, readAt?, List.getElem?_drop, Nat.add_zero]

theorem lt_length_of_readAt? {distance : Nat} (h : (m.readAt? env distance name).isSome) :
    distance < env.length := by
  by_cases hlt : distance < env.length
  · exact hlt
  · rw [readAt?, List.getElem?_eq_none (Nat.le_of_not_lt hlt)] at h
    exact absurd h (by simp)

/-- A search finds what the nearest frame with the name binds it to. -/
theorem read?_eq_some_iff (m : Memory) (env : Env) (name : String) (value : Value) :
    m.read? env name = some value ↔ ∃ distance, m.readAt? env distance name = some value
      ∧ ∀ nearer < distance, m.readAt? env nearer name = none := by
  induction env with
  | nil => simp
  | cons a outer ih =>
      rw [read?_cons]
      cases hown : m.readAt? (a :: outer) 0 name with
      | some own =>
          rw [Option.some_or]
          constructor
          · intro heq
            exact ⟨0, by rw [hown, heq], fun nearer hlt => absurd hlt (Nat.not_lt_zero _)⟩
          · rintro ⟨distance, hvalue, hnearer⟩
            cases distance with
            | zero => rw [← hvalue, hown]
            | succ distance =>
                have hnone := hnearer 0 (Nat.zero_lt_succ _)
                rw [hown] at hnone
                exact absurd hnone (by simp)
      | none =>
          rw [Option.none_or, ih]
          constructor
          · rintro ⟨distance, hvalue, hnearer⟩
            refine ⟨distance + 1, by rw [readAt?_succ, hvalue], fun nearer hlt => ?_⟩
            cases nearer with
            | zero => exact hown
            | succ nearer =>
                rw [readAt?_succ]
                exact hnearer nearer (Nat.lt_of_succ_lt_succ hlt)
          · rintro ⟨distance, hvalue, hnearer⟩
            cases distance with
            | zero => exact absurd (hown.symm.trans hvalue) (by simp)
            | succ distance =>
                refine ⟨distance, by rw [← readAt?_succ (a := a), hvalue], fun nearer hlt => ?_⟩
                rw [← readAt?_succ (a := a)]
                exact hnearer (nearer + 1) (Nat.succ_lt_succ hlt)

theorem read?_isSome_iff (m : Memory) (env : Env) (name : String) :
    (m.read? env name).isSome ↔ ∃ holder, m.Nearest name env holder := by
  induction env with
  | nil =>
      refine iff_of_false (by simp) ?_
      rintro ⟨holder, hnearest⟩
      cases hnearest with
      | here hheld => exact absurd hheld (by simp)
  | cons a outer ih =>
      rw [read?_cons, Option.isSome_or, Bool.or_eq_true]
      constructor
      · intro h
        cases hown : m.readAt? (a :: outer) 0 name with
        | some own => exact ⟨_, .here (by rw [hown]; rfl)⟩
        | none =>
            rw [hown] at h
            obtain ⟨holder, hnearest⟩ := ih.mp (h.resolve_left (by simp))
            exact ⟨holder, .outward hown hnearest⟩
      · rintro ⟨holder, hnearest⟩
        cases hnearest with
        | here hheld => exact .inl hheld
        | outward _ hnearest => exact .inr (ih.mpr ⟨holder, hnearest⟩)

/-- The frame that an assignment searches for is the own frame of the nearest holder. -/
theorem holder?_eq_some_iff (m : Memory) (env : Env) (name : String) (a : Address) :
    m.holder? env name = some a ↔ ∃ outer, m.Nearest name env (a :: outer) := by
  induction env with
  | nil =>
      refine iff_of_false (by simp [holder?]) ?_
      rintro ⟨outer, hnearest⟩
      cases hnearest
  | cons b rest ih =>
      rw [holder?, List.find?_cons]
      cases hown : (m.frame b).binds name with
      | true =>
          constructor
          · rintro ⟨⟩
            exact ⟨rest, .here hown⟩
          · rintro ⟨outer, hnearest⟩
            cases hnearest with
            | here => rfl
            | outward hnot => simp [Bindings.binds, show (m.frame b).get? name = none from hnot] at hown
      | false =>
          have hnot : m.readAt? (b :: rest) 0 name = none := by
            simpa [Bindings.binds] using hown
          rw [show rest.find? (fun a => (m.frame a).binds name) = m.holder? rest name from rfl, ih]
          constructor
          · rintro ⟨outer, hnearest⟩
            exact ⟨outer, .outward hnot hnearest⟩
          · rintro ⟨outer, hnearest⟩
            cases hnearest with
            | here hheld => simp [hnot] at hheld
            | outward _ hnearest => exact ⟨outer, hnearest⟩

/-- At a distance there is no search: the frame there binds the name, or nothing does. -/
theorem holderAt?_eq_some_iff (m : Memory) (env : Env) (distance : Nat) (name : String)
    (a : Address) : m.holderAt? env distance name = some a
      ↔ ∃ outer, env.drop distance = a :: outer ∧ (m.readAt? (a :: outer) 0 name).isSome := by
  have hhead : m.holderAt? env distance name = m.holderAt? (env.drop distance) 0 name := by
    rw [holderAt?, holderAt?, List.getElem?_drop, Nat.add_zero]
  rw [hhead]
  cases env.drop distance with
  | nil => simp [holderAt?]
  | cons b rest =>
      have hown : m.holderAt? (b :: rest) 0 name
          = if (m.frame b).binds name then some b else none := rfl
      rw [hown]
      by_cases hbinds : (m.frame b).binds name
      · rw [if_pos hbinds]
        constructor
        · rintro ⟨⟩
          exact ⟨rest, rfl, hbinds⟩
        · rintro ⟨outer, heq, -⟩
          rw [(List.cons.inj heq).1]
      · rw [if_neg hbinds]
        refine iff_of_false (by simp) ?_
        rintro ⟨outer, heq, hheld⟩
        rw [readAt?_zero, ← (List.cons.inj heq).1] at hheld
        exact hbinds hheld

theorem Nearest.isSome {holder : Env} (h : m.Nearest name env holder) :
    (m.readAt? holder 0 name).isSome := by
  induction h with
  | here hheld => exact hheld
  | outward _ _ ih => exact ih

theorem Nearest.mem {size : Nat} {envs : List Env} {holder : Env}
    (h : m.Nearest name env holder) (hforest : Forest size envs) (henv : env ∈ envs) :
    holder ∈ envs := by
  induction h with
  | here => exact henv
  | outward _ hnearest ih =>
      rcases hforest.behind henv with rfl | houter
      · cases hnearest with
        | here hheld => exact absurd hheld (by simp)
      · exact ih houter

end Lookups

/-! ### One slot at a time

An environment and a name are a slot.  What an assignment writes to is one slot, which is
read through every row that comes to that environment before any other with the name. -/

/-- `m'` is `m` after `value` was written to the slot of `name` in the environment
`holder`, and to nothing else. -/
structure Written (m m' : Memory) (envs : List Env) (holder : Env) (name : String)
    (value : Value) : Prop where
  /-- It is a slot of the tree, and was there before. -/
  mem : holder ∈ envs
  held : (m.readAt? holder 0 name).isSome
  slot : m'.readAt? holder 0 name = some value
  others : ∀ env ∈ envs, ∀ other, (env, other) ≠ (holder, name) →
    m'.readAt? env 0 other = m.readAt? env 0 other
  /-- Whoever has it as the nearest slot of that name sees the new value. -/
  seen : ∀ env ∈ envs, m.Nearest name env holder → m'.read? env name = some value
  unseen : ∀ env ∈ envs, ¬m.Nearest name env holder → m'.read? env name = m.read? env name
  unnamed : ∀ env ∈ envs, ∀ other, other ≠ name → m'.read? env other = m.read? env other
  /-- There are no more frames, and nothing else of the memory is touched. -/
  rest : m'.frames.size = m.frames.size ∧ m' = { m with frames := m'.frames }

section Writing

variable {m : Memory} {envs : List Env} {env outer : Env} {a : Address} {name : String}
  {value : Value}

theorem readAt?_bindAt_self (ha : a < m.frames.size) :
    (m.bindAt a name value).readAt? (a :: outer) 0 name = some value := by
  rw [readAt?_zero, frame_bindAt, if_pos ⟨rfl, ha⟩, Bindings.get?_insert_self]

/-- All other slots keep what they hold. -/
theorem readAt?_bindAt_of_ne (hforest : Forest m.frames.size envs) (hholder : a :: outer ∈ envs)
    (henv : env ∈ envs) {other : String} (hne : (env, other) ≠ (a :: outer, name)) :
    (m.bindAt a name value).readAt? env 0 other = m.readAt? env 0 other := by
  obtain ⟨b, rest, rfl, -, -⟩ := hforest.row env henv
  rw [readAt?_zero, readAt?_zero, frame_bindAt]
  by_cases hab : a = b
  · subst hab
    have hname : name ≠ other := by
      rintro rfl
      exact hne (by rw [hforest.one a rest outer henv hholder])
    rw [if_pos ⟨rfl, hforest.lt_size hholder⟩, Bindings.get?_insert_of_ne hname]
  · rw [if_neg (fun h => hab h.1)]

/-- A search is answered from the slots on the row. -/
theorem read?_eq_of_slots {m' : Memory} (hforest : Forest m.frames.size envs)
    (henv : env ∈ envs) (hslots : ∀ env ∈ envs, m'.readAt? env 0 name = m.readAt? env 0 name) :
    m'.read? env name = m.read? env name := by
  induction env with
  | nil => rfl
  | cons b rest ih =>
      rw [read?_cons, read?_cons, hslots _ henv]
      rcases hforest.behind henv with rfl | hrest
      · rfl
      · rw [ih hrest]

theorem read?_bindAt_of_nearest (hforest : Forest m.frames.size envs)
    (hholder : a :: outer ∈ envs) (henv : env ∈ envs) (h : m.Nearest name env (a :: outer)) :
    (m.bindAt a name value).read? env name = some value := by
  generalize hto : a :: outer = holder at h
  induction h with
  | here =>
      subst hto
      rw [read?_cons, readAt?_bindAt_self (hforest.lt_size hholder), Option.some_or]
  | @outward b rest holder hnot hnearest ih =>
      subst hto
      have hne : (b :: rest, name) ≠ (a :: outer, name) := by
        intro heq
        have hheld := hnearest.isSome
        rw [← (Prod.mk.inj heq).1, hnot] at hheld
        exact absurd hheld (by simp)
      rw [read?_cons, readAt?_bindAt_of_ne hforest hholder henv hne, hnot, Option.none_or]
      rcases hforest.behind henv with rfl | hrest
      · cases hnearest
      · exact ih hrest rfl

theorem read?_bindAt_of_not_nearest (hforest : Forest m.frames.size envs)
    (hholder : a :: outer ∈ envs) (hheld : (m.readAt? (a :: outer) 0 name).isSome)
    (henv : env ∈ envs) (h : ¬m.Nearest name env (a :: outer)) :
    (m.bindAt a name value).read? env name = m.read? env name := by
  induction env with
  | nil => rfl
  | cons b rest ih =>
      have hne : (b :: rest, name) ≠ (a :: outer, name) := by
        intro heq
        obtain ⟨rfl, rfl⟩ := List.cons.inj (Prod.mk.inj heq).1
        exact h (.here hheld)
      rw [read?_cons, read?_cons, readAt?_bindAt_of_ne hforest hholder henv hne]
      cases hown : m.readAt? (b :: rest) 0 name with
      | some own => rw [Option.some_or, Option.some_or]
      | none =>
          rw [Option.none_or, Option.none_or]
          rcases hforest.behind henv with rfl | hrest
          · rfl
          · exact ih hrest (fun hnearest => h (.outward hown hnearest))

/-- To bind a name again in the own frame of an environment writes that slot only. -/
theorem written_bindAt (hforest : Forest m.frames.size envs) (hholder : a :: outer ∈ envs)
    (hheld : (m.readAt? (a :: outer) 0 name).isSome) (value : Value) :
    Written m (m.bindAt a name value) envs (a :: outer) name value where
  mem := hholder
  held := hheld
  slot := readAt?_bindAt_self (hforest.lt_size hholder)
  others _ henv _ hne := readAt?_bindAt_of_ne hforest hholder henv hne
  seen _ henv := read?_bindAt_of_nearest hforest hholder henv
  unseen _ henv := read?_bindAt_of_not_nearest hforest hholder hheld henv
  unnamed _ henv _ hne := read?_eq_of_slots hforest henv fun _ henv =>
    readAt?_bindAt_of_ne hforest hholder henv (fun heq => hne (Prod.mk.inj heq).2)
  rest := ⟨size_bindAt m a name value, rfl⟩

end Writing

/-! ### What holds of every tree -/

section Attempts

variable {m : Memory} {envs : List Env} {env : Env} {distance : Nat} {name : String}
  {value : Value}

theorem size_tryAssign (m : Memory) (env : Env) (name : String) (value : Value) :
    (m.tryAssign env name value).frames.size = m.frames.size := by
  rw [tryAssign, assign?]
  cases m.holder? env name with
  | none => rfl
  | some a => exact size_bindAt m a name value

theorem size_tryAssignAt (m : Memory) (env : Env) (distance : Nat) (name : String)
    (value : Value) : (m.tryAssignAt env distance name value).frames.size = m.frames.size := by
  rw [tryAssignAt, assignAt?]
  cases m.holderAt? env distance name with
  | none => rfl
  | some a => exact size_bindAt m a name value

theorem size_define (m : Memory) (env : Env) (name : String) (value : Value) :
    (m.define env name value).frames.size = m.frames.size := by
  cases env with
  | nil => rfl
  | cons a _ => exact size_bindAt m a name value

theorem Grown.forest (h : Grown m envs) : Forest m.frames.size envs := by
  induction h with
  | start => exact Forest.empty _
  | root _ ih =>
      rw [size_newFrame]
      exact ih.push (.inl rfl)
  | child _ henv ih =>
      rw [size_newFrame]
      exact ih.push (.inr henv)
  | define _ _ name value ih => rwa [size_define]
  | assign _ _ name value ih => rwa [size_tryAssign]
  | assignAt _ _ distance name value ih => rwa [size_tryAssignAt]

theorem assign?_isSome (m : Memory) (env : Env) (name : String) (value : Value) :
    (m.assign? env name value).isSome ↔ (m.read? env name).isSome := by
  rw [read?_isSome_iff, assign?]
  cases hholder : m.holder? env name with
  | some a =>
      obtain ⟨outer, hnearest⟩ := (holder?_eq_some_iff m env name a).mp hholder
      exact iff_of_true rfl ⟨_, hnearest⟩
  | none =>
      refine iff_of_false (by simp) ?_
      rintro ⟨holder, hnearest⟩
      cases holder with
      | nil => exact absurd hnearest.isSome (by simp)
      | cons a outer =>
          have hsome := (holder?_eq_some_iff m env name a).mpr ⟨outer, hnearest⟩
          exact absurd (hholder.symm.trans hsome) (by simp)

theorem assign?_written (h : Grown m envs) (henv : env ∈ envs) {m' : Memory}
    (hassign : m.assign? env name value = some m') :
    ∃ holder, m.Nearest name env holder ∧ Written m m' envs holder name value := by
  rw [assign?] at hassign
  cases hholder : m.holder? env name with
  | none => simp [hholder] at hassign
  | some a =>
      rw [hholder] at hassign
      obtain rfl := Option.some.inj hassign
      obtain ⟨outer, hnearest⟩ := (holder?_eq_some_iff m env name a).mp hholder
      exact ⟨_, hnearest, written_bindAt h.forest (hnearest.mem h.forest henv) hnearest.isSome value⟩

theorem assignAt?_isSome (m : Memory) (env : Env) (distance : Nat) (name : String)
    (value : Value) :
    (m.assignAt? env distance name value).isSome ↔ (m.readAt? env distance name).isSome := by
  rw [assignAt?, readAt?_eq_drop]
  cases hholder : m.holderAt? env distance name with
  | some a =>
      obtain ⟨outer, hdrop, hheld⟩ := (holderAt?_eq_some_iff m env distance name a).mp hholder
      exact iff_of_true rfl (hdrop ▸ hheld)
  | none =>
      refine iff_of_false (by simp) fun hheld => ?_
      cases hdrop : env.drop distance with
      | nil => simp [hdrop] at hheld
      | cons a outer =>
          have hsome := (holderAt?_eq_some_iff m env distance name a).mpr
            ⟨outer, hdrop, hdrop ▸ hheld⟩
          exact absurd (hholder.symm.trans hsome) (by simp)

theorem assignAt?_written (h : Grown m envs) (henv : env ∈ envs) {m' : Memory}
    (hassign : m.assignAt? env distance name value = some m') :
    Written m m' envs (env.drop distance) name value := by
  rw [assignAt?] at hassign
  cases hholder : m.holderAt? env distance name with
  | none => simp [hholder] at hassign
  | some a =>
      rw [hholder] at hassign
      obtain rfl := Option.some.inj hassign
      obtain ⟨outer, hdrop, hheld⟩ := (holderAt?_eq_some_iff m env distance name a).mp hholder
      have hlt : distance < env.length := by
        rw [← hdrop, ← readAt?_eq_drop] at hheld
        exact lt_length_of_readAt? hheld
      have hmem := h.forest.drop henv hlt
      rw [hdrop] at hmem ⊢
      exact written_bindAt h.forest hmem hheld value

/-- **Searches, distances and assignments in a tree of environments**, which any sequence
of operations has made.

So many frames out there is another environment of the tree, and a search is answered by
the least distance with an answer.  An assignment succeeds just if a search does, and then
writes the slot of the nearest environment that has the name; with a distance it succeeds
just if there is something to read at that distance, and then writes that slot.  An
attempt that fails leaves everything as it was. -/
theorem Grown.lookups_and_assignments (h : Grown m envs) (henv : env ∈ envs) (distance : Nat)
    (name : String) (value : Value) :
    (distance < env.length → env.drop distance ∈ envs)
      ∧ m.readAt? env distance name = m.readAt? (env.drop distance) 0 name
      ∧ (∀ found, m.read? env name = some found ↔
          ∃ least, m.readAt? env least name = some found
            ∧ ∀ nearer < least, m.readAt? env nearer name = none)
      ∧ ((m.assign? env name value).isSome ↔ (m.read? env name).isSome)
      ∧ (∀ m', m.assign? env name value = some m' →
          ∃ holder, m.Nearest name env holder ∧ Written m m' envs holder name value)
      ∧ (m.assign? env name value = none → m.tryAssign env name value = m)
      ∧ ((m.assignAt? env distance name value).isSome ↔ (m.readAt? env distance name).isSome)
      ∧ (∀ m', m.assignAt? env distance name value = some m' →
          Written m m' envs (env.drop distance) name value)
      ∧ (m.assignAt? env distance name value = none →
          m.tryAssignAt env distance name value = m) := by
  refine ⟨h.forest.drop henv, readAt?_eq_drop m env distance name,
    read?_eq_some_iff m env name, assign?_isSome m env name value,
    fun m' => assign?_written h henv, fun hfailed => ?_,
    assignAt?_isSome m env distance name value, fun m' => assignAt?_written h henv,
    fun hfailed => ?_⟩
  · rw [tryAssign, hfailed, Option.getD_none]
  · rw [tryAssignAt, hfailed, Option.getD_none]

/-- Two environments in one: what is assigned through the first is read through the
second. -/
theorem siblings_share : ∃ m m' : Memory, Grown m [[2, 0], [1, 0], [0]]
    ∧ m.assign? [1, 0] "x" (.bool true) = some m'
    ∧ m'.read? [2, 0] "x" = some (.bool true) := by
  have hgrown : Grown ⟨#[[("x", .nil)], [], []], #[], 0, 0⟩ [[2, 0], [1, 0], [0]] :=
    ((((Grown.start (m := ⟨#[], #[], 0, 0⟩) rfl).root).define
      (List.mem_singleton_self [0]) "x" .nil).child (List.mem_singleton_self [0])).child
        (List.mem_cons_of_mem [1, 0] (List.mem_singleton_self [0]))
  have henv : [1, 0] ∈ [[2, 0], [1, 0], [0]] := by decide
  obtain ⟨-, -, -, hsucceeds, hwritten, -⟩ :=
    hgrown.lookups_and_assignments henv 1 "x" (.bool true)
  obtain ⟨m', hassign⟩ := Option.isSome_iff_exists.mp (hsucceeds.mpr rfl)
  obtain ⟨holder, hnearest, hwritten⟩ := hwritten m' hassign
  refine ⟨_, m', hgrown, hassign, hwritten.seen [2, 0] (by decide) (.outward rfl ?_)⟩
  cases hnearest with
  | here hheld => exact absurd hheld (by decide)
  | outward _ hnearest => exact hnearest

end Attempts

end Memory

/-- To assign is one of these attempts: with the distance of the occurrence, if it has
one, and else as a search among the globals. -/
theorem Machine.memory_assign (setting : Setting) (s : State) (target : Occurrence)
    (v : Value) : (assign setting s target v).memory
      = match setting.locals[target.id]? with
        | some distance => s.memory.tryAssignAt s.env distance target.name.lexeme v
        | none => s.memory.tryAssign Memory.globals target.name.lexeme v := by
  unfold assign locate
  cases setting.locals[target.id]? with
  | some distance =>
      simp only [Memory.tryAssignAt, Memory.assignAt?]
      cases s.memory.holderAt? s.env distance target.name.lexeme <;> rfl
  | none =>
      simp only [Memory.tryAssign, Memory.assign?]
      cases s.memory.holder? Memory.globals target.name.lexeme <;> rfl

end Lox
