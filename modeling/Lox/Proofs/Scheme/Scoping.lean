/-
Names in Scheme.

A symbol in a program means what the nearest form around it says that binds the symbol,
and a form is one of Scheme's own only where nothing has bound the word it begins with.
`parts` says of a datum which data in it are evaluated, each with the names that are bound
there; what is left out are the keywords, the names that are bound, and what is quoted.
Every other symbol is a mention of a variable.
-/
import Lox.Proofs.Scheme.Forms

namespace Lox.Scheme

/-- A symbol where a name is bound, with its mark. -/
abbrev Name := String × Option Place

/-- The names that are bound, the innermost first. -/
abbrev Bound := List Name

/-- The forms that bind names. -/
inductive Form where
  | procedure (params : Bound) (body : List Marked)
  | bindings (row : List (Name × Marked)) (body : List Marked)
  | loop (name : Name) (row : List (Name × Marked)) (body : List Marked)
  | recursive (row : List (Name × Marked)) (body : List Marked)
  | definition (name : Name) (value : Marked)

/-- The names that a form binds. -/
def Form.names : Form → Bound
  | procedure params _ => params
  | bindings row _ | recursive row _ => row.map Prod.fst
  | loop name row _ => name :: row.map Prod.fst
  | definition name _ => [name]

/-- A symbol where a name is bound. -/
def name? : Marked → Option Name
  | .symbol text mark => some (text, mark)
  | _ => none

/-- A name with the value it is bound to. -/
def binding? : Marked → Option (Name × Marked)
  | .list [.symbol text mark, value] => some ((text, mark), value)
  | _ => none

/-- The form that a word begins, with what is behind it. -/
def form? (keyword : String) (rest : List Marked) : Option Form :=
  match keyword, rest with
  | "lambda", .list params :: body =>
      (params.mapM name?).map fun params => .procedure params body
  | "let", .list row :: body => (row.mapM binding?).map fun row => .bindings row body
  | "let", .symbol text mark :: .list row :: body =>
      (row.mapM binding?).map fun row => .loop (text, mark) row body
  | "letrec", .list row :: body => (row.mapM binding?).map fun row => .recursive row body
  | "define", [.symbol text mark, value] => some (.definition (text, mark) value)
  | _, _ => none

/-- The form that a list is, where these names are bound. -/
def formOf (bound : Bound) : List Marked → Option Form
  | .symbol keyword _ :: rest => if (bound.lookup keyword).isSome then none else form? keyword rest
  | _ => none

/-- What is evaluated in a datum, with the names that are bound there. -/
def parts (bound : Bound) : Marked → List (Bound × Marked)
  | .list items =>
      match formOf bound items with
      | some (.procedure params body) => body.map fun d => (params ++ bound, d)
      | some (.bindings row body) =>
          (row.map fun b => (bound, b.2)) ++ body.map fun d => (row.map Prod.fst ++ bound, d)
      | some (.loop name row body) =>
          (row.map fun b => (bound, b.2))
            ++ body.map fun d => (row.map Prod.fst ++ name :: bound, d)
      | some (.recursive row body) =>
          (row.map Prod.snd ++ body).map fun d => (row.map Prod.fst ++ bound, d)
      | some (.definition _ value) => [(bound, value)]
      | none => items.map fun d => (bound, d)
  | _ => []

/-- `Evaluated bound datum bound' datum'`: where a datum is evaluated with some names bound,
another one is, with the names that are bound there. -/
inductive Evaluated (bound : Bound) (datum : Marked) : Bound → Marked → Prop
  | self : Evaluated bound datum bound datum
  | part {middle bound' : Bound} {outer datum' : Marked}
      (h : Evaluated bound datum middle outer) (hpart : (bound', datum') ∈ parts middle outer) :
      Evaluated bound datum bound' datum'

variable {bound bound' : Bound} {datum datum' : Marked}

/-- What is evaluated in a part of a datum is evaluated in the datum. -/
theorem Evaluated.outer {middle : Bound} {inner : Marked} (hpart : (middle, inner) ∈ parts bound datum)
    (h : Evaluated middle inner bound' datum') : Evaluated bound datum bound' datum' := by
  induction h with
  | self => exact .part .self hpart
  | part _ hinner ih => exact .part ih hinner

/-- Whatever is evaluated in a datum is the datum itself or evaluated in one of its parts. -/
theorem evaluated_iff : Evaluated bound datum bound' datum' ↔
    (bound' = bound ∧ datum' = datum) ∨
      ∃ part ∈ parts bound datum, Evaluated part.1 part.2 bound' datum' := by
  constructor
  · intro h
    induction h with
    | self => exact Or.inl ⟨rfl, rfl⟩
    | @part middle bound' outer datum' _ hpart ih =>
        rcases ih with ⟨rfl, rfl⟩ | ⟨first, hfirst, hwithin⟩
        · exact Or.inr ⟨(bound', datum'), hpart, .self⟩
        · exact Or.inr ⟨first, hfirst, .part hwithin hpart⟩
  · rintro (⟨rfl, rfl⟩ | ⟨part, hpart, hwithin⟩)
    · exact .self
    · exact hwithin.outer hpart

/-- Where the parts of a datum are evaluated, only the names of its form are bound besides. -/
theorem parts_bound (h : (bound', datum') ∈ parts bound datum) : bound' = bound ∨
    ∃ items form, datum = .list items ∧ formOf bound items = some form ∧
      ∀ name ∈ bound', name ∈ form.names ∨ name ∈ bound := by
  cases datum with
  | list items =>
      rw [parts] at h
      split at h
      · rename_i params body hform
        obtain ⟨d, -, heq⟩ := List.mem_map.mp h
        obtain ⟨rfl, -⟩ := Prod.mk.inj heq
        exact Or.inr ⟨items, _, rfl, hform, fun name hname => List.mem_append.mp hname⟩
      · rename_i row body hform
        rcases List.mem_append.mp h with h | h
        · obtain ⟨d, -, heq⟩ := List.mem_map.mp h
          exact Or.inl (Prod.mk.inj heq).1.symm
        · obtain ⟨d, -, heq⟩ := List.mem_map.mp h
          obtain ⟨rfl, -⟩ := Prod.mk.inj heq
          exact Or.inr ⟨items, _, rfl, hform, fun name hname => List.mem_append.mp hname⟩
      · rename_i name row body hform
        rcases List.mem_append.mp h with h | h
        · obtain ⟨d, -, heq⟩ := List.mem_map.mp h
          exact Or.inl (Prod.mk.inj heq).1.symm
        · obtain ⟨d, -, heq⟩ := List.mem_map.mp h
          obtain ⟨rfl, -⟩ := Prod.mk.inj heq
          refine Or.inr ⟨items, _, rfl, hform, fun other hother => ?_⟩
          simp only [List.mem_append, List.mem_cons, Form.names] at hother ⊢
          tauto
      · rename_i row body hform
        obtain ⟨d, -, heq⟩ := List.mem_map.mp h
        obtain ⟨rfl, -⟩ := Prod.mk.inj heq
        exact Or.inr ⟨items, _, rfl, hform, fun name hname => List.mem_append.mp hname⟩
      · exact Or.inl (Prod.mk.inj (List.mem_singleton.mp h)).1
      · obtain ⟨d, -, heq⟩ := List.mem_map.mp h
        exact Or.inl (Prod.mk.inj heq).1.symm
  | _ => cases h

/-! ### The names that programs bind -/

/-- The names that are not taken from a program, but bound for its ways out and its
receivers. -/
def ownNames : List String :=
  ["this", "%super", "%return", "%break", "%loop"]

/-- A name that is taken from a program, or one of those. -/
def IsOwn (text : String) : Prop :=
  (∃ rest, text = "lox:" ++ rest) ∨ text ∈ ownNames

theorem isOwn_symbol (name : Token) : IsOwn (symbol name) :=
  Or.inl ⟨name.lexeme, rfl⟩

/-- A text that does not begin like a name of a program is none. -/
theorem not_isOwn {text : String} (hbegin : text.toList.take 4 ≠ ['l', 'o', 'x', ':'])
    (h : text ∉ ownNames) : ¬IsOwn text := by
  rintro (⟨rest, rfl⟩ | hmem)
  · refine hbegin ?_
    rw [String.toList_append]
    rfl
  · exact h hmem

/-- Where only such names are bound, any other one is free. -/
theorem lookup_eq_none (hbound : ∀ name ∈ bound, IsOwn name.1) {text : String}
    (h : ¬IsOwn text) : bound.lookup text = none := by
  rw [List.lookup_eq_none_iff]
  rintro ⟨name, mark⟩ hmem
  simp only [bne_iff_ne]
  rintro rfl
  exact h (hbound _ hmem)

end Lox.Scheme
