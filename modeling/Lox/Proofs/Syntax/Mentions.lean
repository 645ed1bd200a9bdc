/-
Where the occurrences of names stand.

An occurrence stands at a place: at a variable that is read or assigned to, at `this` or
at `super`.  The numbers listed for a part are that of the occurrence that stands at the
part itself and those of its parts.  So in a program whose occurrences are numbered apart,
a number tells the place.

What a keyword looks for does not depend on how its token is spelled.
-/
import Mathlib.Data.List.Nodup
import Lox.Proofs.Syntax.Places
import Lox.Proofs.Syntax.Trees

namespace Lox

/-- The name that an occurrence looks for, and the number of the occurrence. -/
structure Mention where
  name : String
  id : Nat

namespace Node

/-- What the occurrence looks for that stands at a part. -/
def mentions? : Node → Option Mention
  | expr (.use occurrence) | expr (.assign occurrence _) =>
      some ⟨occurrence.name.lexeme, occurrence.id⟩
  | expr (.this receiver) => some ⟨"this", receiver.id⟩
  | expr (.super keyword _) => some ⟨"super", keyword.id⟩
  | _ => none

/-- The numbers of the occurrences in a part. -/
def ids : Node → List Nat
  | program body => Stmt.idsAll body
  | stmt s => s.ids
  | expr e => e.ids
  | function declaration | method declaration => declaration.ids
  | param _ => []

/-- The number of the occurrence that stands at a part itself. -/
def ownIds (node : Node) : List Nat :=
  (node.mentions?.map Mention.id).toList

theorem idsAll_exprs (row : List Expr) : (row.map expr).flatMap ids = Expr.idsAll row := by
  induction row with
  | nil => rfl
  | cons e rest ih => simp [ids, Expr.idsAll, ih]

theorem idsAll_stmts (row : List Stmt) : (row.map stmt).flatMap ids = Stmt.idsAll row := by
  induction row with
  | nil => rfl
  | cons s rest ih => simp [ids, Stmt.idsAll, ih]

theorem idsAll_methods (row : List FunctionDecl) :
    (row.map method).flatMap ids = FunctionDecl.idsAll row := by
  induction row with
  | nil => rfl
  | cons f rest ih => simp [ids, FunctionDecl.idsAll, ih]

theorem idsAll_params (row : List Token) : (row.map param).flatMap ids = [] := by
  induction row with
  | nil => rfl
  | cons param rest ih => simp [ids, ih]

/-- The numbers in a function are those in its body. -/
theorem idsAll_ofFunction (f : FunctionDecl) : (ofFunction f).flatMap ids = f.ids := by
  obtain ⟨name, params, body⟩ := f
  rw [ofFunction, List.flatMap_append, idsAll_params, List.nil_append, idsAll_stmts]
  rfl

theorem ids_ofExpr (e : Expr) :
    (expr e).ids.Perm ((expr e).ownIds ++ (ofExpr e).flatMap ids) := by
  cases e with
  | assign target value => simp [ids, ownIds, mentions?, ofExpr, Expr.ids]
  | call callee paren arguments => simp [ids, ownIds, mentions?, ofExpr, Expr.ids, idsAll_exprs]
  | _ => simp [ids, ownIds, mentions?, ofExpr, Expr.ids]

theorem ids_ofStmt (s : Stmt) : (stmt s).ids = (ofStmt s).flatMap ids := by
  cases s with
  | var name initializer => cases initializer <;> simp [ids, ofStmt, Stmt.ids]
  | block body => simp [ids, ofStmt, Stmt.ids, idsAll_stmts]
  | ifElse condition onTrue onFalse => cases onFalse <;> simp [ids, ofStmt, Stmt.ids]
  | returnWith keyword value => cases value <;> simp [ids, ofStmt, Stmt.ids]
  | classDecl name superclass methods =>
      cases superclass <;> simp [ids, ofStmt, Stmt.ids, Expr.ids, idsAll_methods]
  | _ => simp [ids, ofStmt, Stmt.ids]

/-- The numbers in a part: its own and those in its parts. -/
theorem ids_perm (n : Node) : n.ids.Perm (n.ownIds ++ n.parts.flatMap ids) := by
  cases n with
  | program body => rw [parts, idsAll_stmts]; rfl
  | stmt s => rw [ids_ofStmt]; rfl
  | expr e => exact ids_ofExpr e
  | function f | method f => rw [parts, idsAll_ofFunction]; rfl
  | param name => rfl

variable {n part other : Node}

theorem ids_part_subset (hpart : part ∈ n.parts) : part.ids ⊆ n.ids := by
  intro id hid
  exact n.ids_perm.symm.subset
    (List.mem_append_right _ (List.mem_flatMap.mpr ⟨part, hpart, hid⟩))

/-- No number is listed for two parts, or for a part and what the part is in. -/
theorem ids_apart (h : n.ids.Nodup) :
    n.ownIds.Disjoint (n.parts.flatMap ids) ∧ (∀ part ∈ n.parts, part.ids.Nodup) ∧
      n.parts.Pairwise (fun part other => part.ids.Disjoint other.ids) := by
  obtain ⟨-, hparts, hdisjoint⟩ := List.nodup_append'.mp (n.ids_perm.nodup h)
  obtain ⟨heach, hapart⟩ := List.nodup_flatMap.mp hparts
  exact ⟨hdisjoint, heach, hapart⟩

end Node

namespace Place

variable {p q q' : Place} {program : List Stmt} {mention mention' : Mention}

theorem Within.ids_subset (h : p.Within q) : q.node.ids ⊆ p.node.ids := by
  induction h with
  | self => exact List.Subset.refl _
  | inside _ hpart ih =>
      exact List.Subset.trans (Node.ids_part_subset (List.mem_of_getElem? hpart)) ih

theorem Within.ids_nodup (h : p.Within q) (hnodup : p.node.ids.Nodup) : q.node.ids.Nodup := by
  induction h with
  | self => exact hnodup
  | inside _ hpart ih => exact (Node.ids_apart ih).2.1 _ (List.mem_of_getElem? hpart)

theorem mem_ids_of_mentions (h : q.node.mentions? = some mention) :
    mention.id ∈ q.node.ids :=
  q.node.ids_perm.symm.subset (List.mem_append_left _ (by simp [Node.ownIds, h]))

/-- An occurrence whose number is listed for a place stands there or inside of it. -/
theorem Within.of_mem_ids (h : p.Within q) (hnodup : p.node.ids.Nodup) (h' : p.Within q')
    (hmentions : q'.node.mentions? = some mention) (hid : mention.id ∈ q.node.ids) :
    q.Within q' := by
  induction h with
  | self => exact h'
  | @inside q i node h hpart ih =>
      obtain ⟨hown, -, hapart⟩ := Node.ids_apart (h.ids_nodup hnodup)
      have hmem := List.mem_of_getElem? hpart
      rcases within_iff.mp (ih (Node.ids_part_subset hmem hid)) with rfl | ⟨j, other, hother, hwithin⟩
      · have hin : mention.id ∈ q'.node.ownIds := by simp [Node.ownIds, hmentions]
        exact absurd (List.mem_flatMap.mpr ⟨node, hmem, hid⟩) (hown hin)
      · have hid' := hwithin.ids_subset (mem_ids_of_mentions hmentions)
        have hsame : i = j := by
          by_contra hne
          have hall := List.pairwise_iff_getElem.mp hapart
          obtain ⟨hi, rfl⟩ := List.getElem?_eq_some_iff.mp hpart
          obtain ⟨hj, rfl⟩ := List.getElem?_eq_some_iff.mp hother
          rcases Nat.lt_or_gt_of_ne hne with hlt | hlt
          · exact hall i j hi hj hlt hid hid'
          · exact hall j i hj hi hlt hid' hid
        subst hsame
        rw [hpart] at hother
        exact (Option.some.inj hother) ▸ hwithin

/-- **A number tells the place**, if the occurrences are numbered apart. -/
theorem IsIn.eq_of_id (hp : IsIn program p) (hq : IsIn program q)
    (hnodup : (Stmt.idsAll program).Nodup) (hmentions : p.node.mentions? = some mention)
    (hmentions' : q.node.mentions? = some mention') (hid : mention.id = mention'.id) :
    p = q := by
  have hpq : p.Within q := hp.of_mem_ids hnodup hq hmentions'
    (hid ▸ mem_ids_of_mentions hmentions)
  have hapart := (Node.ids_apart (hp.ids_nodup hnodup)).1
  rcases within_iff.mp hpq with rfl | ⟨i, part, hpart, hwithin⟩
  · rfl
  · have hin : mention.id ∈ p.node.ownIds := by simp [Node.ownIds, hmentions]
    have hid' := hwithin.ids_subset (mem_ids_of_mentions hmentions')
    rw [← hid] at hid'
    exact absurd (List.mem_flatMap.mpr ⟨part, List.mem_of_getElem? hpart, hid'⟩) (hapart hin)

end Place

end Lox
