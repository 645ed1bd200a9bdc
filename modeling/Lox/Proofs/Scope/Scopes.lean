/-
Names, scopes and distances.

How far out a name is declared changes in two ways only: a new scope moves every name one
further out, and a declaration brings its own name to distance zero.
-/
import Lox.Scope.Scopes

namespace Lox.Scope

namespace Scopes

variable {name other : String} {complete : Bool} {scopes : Scopes}

/-! ### Distances -/

theorem distance?_nil (name : String) : distance? name [] = none :=
  rfl

theorem distance?_cons (name : String) (names : Names) (scopes : Scopes) :
    distance? name (names :: scopes)
      = if names.binds name then some 0 else (distance? name scopes).map (· + 1) := by
  rw [distance?, List.findIdx?_cons]
  rfl

/-- A new scope moves everything one further out. -/
theorem distance?_push (name : String) (scopes : Scopes) :
    distance? name ([] :: scopes) = (distance? name scopes).map (· + 1) := by
  rw [distance?_cons]
  rfl

theorem distance?_mark_self (h : scopes ≠ []) :
    distance? name (scopes.mark name complete) = some 0 := by
  cases scopes with
  | nil => exact absurd rfl h
  | cons names outer => simp [mark, distance?_cons, Bindings.binds_insert]

theorem distance?_mark_of_ne (h : name ≠ other) :
    distance? other (scopes.mark name complete) = distance? other scopes := by
  cases scopes with
  | nil => rfl
  | cons names outer => simp [mark, distance?_cons, Bindings.binds_insert, h]

/-- Whether a declaration is complete does not matter for distances. -/
theorem distance?_remark {complete' : Bool} (complete : Bool) :
    distance? other (scopes.mark name complete') = distance? other (scopes.mark name complete) := by
  cases scopes with
  | nil => rfl
  | cons names outer => simp [mark, distance?_cons, Bindings.binds_insert]

theorem mark_eq_nil_iff : scopes.mark name complete = [] ↔ scopes = [] := by
  cases scopes <;> simp [mark]

theorem length_mark (scopes : Scopes) (name : String) (complete : Bool) :
    (scopes.mark name complete).length = scopes.length := by
  cases scopes <;> rfl

/-! ### Names whose initializer is being read -/

/-- No declaration is incomplete. -/
def Settled (scopes : Scopes) : Prop :=
  ∀ name, scopes.isInitializing name = false

theorem settled_nil : Settled [] :=
  fun _ => rfl

theorem settled_push (scopes : Scopes) : Settled ([] :: scopes) :=
  fun _ => rfl

theorem isInitializing_mark_of_ne (h : name ≠ other) :
    (scopes.mark name complete).isInitializing other = scopes.isInitializing other := by
  cases scopes with
  | nil => rfl
  | cons names outer => simp [mark, isInitializing, Bindings.get?_insert_of_ne h]

theorem isInitializing_mark_self :
    (scopes.mark name complete).isInitializing name = (!complete && !scopes.isEmpty) := by
  cases scopes with
  | nil => simp [mark, isInitializing]
  | cons names outer => cases complete <;> simp [mark, isInitializing]

theorem Settled.mark (h : scopes.Settled) (name : String) : (scopes.mark name true).Settled := by
  intro other
  by_cases heq : name = other
  · subst heq
    simp [isInitializing_mark_self]
  · rw [isInitializing_mark_of_ne heq]
    exact h other

/-- Only the innermost scope can be incomplete. -/
theorem distance?_of_isInitializing (h : scopes.isInitializing name) :
    distance? name scopes = some 0 := by
  cases scopes with
  | nil => simp [isInitializing] at h
  | cons names outer =>
      have hbinds : names.binds name := by
        simp only [isInitializing, decide_eq_true_eq] at h
        rw [Bindings.binds, h]
        rfl
      rw [distance?_cons, if_pos hbinds]

end Scopes

/-! ### The scope of parameters -/

/-- The names of the parameters of a function. -/
def paramNames (params : List Token) : Names :=
  params.foldl (fun names param => names.insert param.lexeme true) []

/-- Which names a row of insertions binds. -/
theorem get?_foldl_insert {α β : Type} (key : β → String) (value : β → α) (row : List β)
    (names : Bindings α) (name : String) :
    Bindings.get? name (row.foldl (fun names b => names.insert (key b) (value b)) names)
      = ((row.reverse.find? (fun b => key b = name)).map value).or (names.get? name) := by
  induction row generalizing names with
  | nil => simp
  | cons b rest ih =>
      rw [List.foldl_cons, ih, Bindings.get?_insert, List.reverse_cons, List.find?_append]
      cases hfind : rest.reverse.find? (fun b => key b = name) with
      | some found => simp
      | none => by_cases heq : key b = name <;> simp [heq]

theorem binds_foldl_insert {α β : Type} (key : β → String) (value : β → α) (row : List β)
    (names : Bindings α) (name : String) :
    Bindings.binds name (row.foldl (fun names b => names.insert (key b) (value b)) names)
      = (decide (name ∈ row.map key) || names.binds name) := by
  induction row generalizing names with
  | nil => simp
  | cons b rest ih =>
      rw [List.foldl_cons, ih, Bindings.binds_insert]
      by_cases heq : key b = name
      · simp [heq]
      · simp [heq, Ne.symm heq]

theorem get?_paramNames (params : List Token) (name : String) :
    (paramNames params).get? name
      = if name ∈ params.map Token.lexeme then some true else none := by
  rw [paramNames, get?_foldl_insert Token.lexeme (fun _ => true)]
  by_cases hmem : name ∈ params.map Token.lexeme
  · obtain ⟨param, hparam, rfl⟩ := List.mem_map.mp hmem
    have hfound : (params.reverse.find? (fun p => p.lexeme = param.lexeme)).isSome := by
      rw [List.find?_isSome]
      exact ⟨param, List.mem_reverse.mpr hparam, by simp⟩
    obtain ⟨found, hfound⟩ := Option.isSome_iff_exists.mp hfound
    rw [hfound, if_pos hmem]
    rfl
  · have hnone : params.reverse.find? (fun p => p.lexeme = name) = none := by
      rw [List.find?_eq_none]
      intro param hparam heq
      exact hmem (List.mem_map.mpr ⟨param, List.mem_reverse.mp hparam, by simpa using heq⟩)
    rw [hnone, if_neg hmem]
    rfl

/-- No parameter is ever incomplete. -/
theorem settled_paramNames (params : List Token) (scopes : Scopes) :
    Scopes.Settled (paramNames params :: scopes) := by
  intro name
  rw [Scopes.isInitializing, get?_paramNames]
  split <;> simp

end Lox.Scope
