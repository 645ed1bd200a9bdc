/-
Names bound to things.

A list of pairs in which every name occurs at most once, because `insert` replaces what
a name is bound to.  All that matters of such a list is what `get?` finds in it.
-/

namespace Lox

/-- Things by name. -/
abbrev Bindings (α : Type) := List (String × α)

namespace Bindings

variable {α : Type}

/-- What a name is bound to. -/
def get? (name : String) : Bindings α → Option α
  | [] => none
  | (n, a) :: rest => if n = name then some a else get? name rest

/-- Binds a name, in the place of its former binding if it had one. -/
def insert (name : String) (value : α) : Bindings α → Bindings α
  | [] => [(name, value)]
  | (n, a) :: rest =>
      if n = name then (name, value) :: rest else (n, a) :: insert name value rest

/-- Whether a name is bound. -/
def binds (name : String) (bs : Bindings α) : Bool :=
  (bs.get? name).isSome

@[simp] theorem get?_nil (name : String) : get? name ([] : Bindings α) = none :=
  rfl

theorem get?_insert (name other : String) (value : α) (bs : Bindings α) :
    get? other (bs.insert name value) = if name = other then some value else get? other bs := by
  induction bs with
  | nil => simp [insert, get?]
  | cons b rest ih =>
      obtain ⟨n, a⟩ := b
      by_cases hn : n = name
      · subst hn
        by_cases ho : n = other <;> simp [insert, get?, ho]
      · by_cases ho : n = other
        · subst ho
          simp [insert, get?, hn, Ne.symm hn]
        · simp [insert, get?, hn, ho, ih]

@[simp] theorem get?_insert_self (name : String) (value : α) (bs : Bindings α) :
    get? name (bs.insert name value) = some value := by
  simp [get?_insert]

theorem get?_insert_of_ne {name other : String} (h : name ≠ other) (value : α)
    (bs : Bindings α) : get? other (bs.insert name value) = get? other bs := by
  simp [get?_insert, h]

theorem binds_insert (name other : String) (value : α) (bs : Bindings α) :
    binds other (bs.insert name value) = (decide (name = other) || binds other bs) := by
  by_cases h : name = other <;> simp [binds, get?_insert, h]

end Bindings

end Lox
