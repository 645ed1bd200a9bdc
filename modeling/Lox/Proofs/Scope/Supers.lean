/-
Where `super` leads.

Around the methods of a class with a superclass there is a scope that binds `super`, and all
scopes that are opened further inside bind other names.  So a `super` leads out of exactly the
scopes that were opened between the class and the place where it stands.  A class without a
superclass has no `super` of its own, and a class with one has nothing to do with the `super`
of a class around it.
-/
import Lox.Proofs.Scope.Acceptance

namespace Lox

/-! ### The keywords of a class -/

mutual

/-- The `super` keywords in an expression. -/
def Expr.supers : Expr → List Occurrence
  | .literal _ | .use _ | .this _ => []
  | .group inner => inner.supers
  | .unary _ operand => operand.supers
  | .binary _ left right => left.supers ++ right.supers
  | .logical _ left right => left.supers ++ right.supers
  | .conditional condition onTrue onFalse =>
      condition.supers ++ (onTrue.supers ++ onFalse.supers)
  | .assign _ value => value.supers
  | .call callee _ arguments => callee.supers ++ Expr.supersAll arguments
  | .get object _ => object.supers
  | .set object _ value => object.supers ++ value.supers
  | .super keyword _ => [keyword]

/-- The `super` keywords in several expressions. -/
def Expr.supersAll : List Expr → List Occurrence
  | [] => []
  | e :: rest => e.supers ++ Expr.supersAll rest

end

/-- The `super` keywords in an expression that stands so many scopes inside of a class. -/
def Expr.supersAt (e : Expr) (depth : Nat) : List (Nat × Occurrence) :=
  e.supers.map (depth, ·)

mutual

/-- The `super` keywords in a statement that stands so many scopes inside of a class, each
with the number of scopes between that class and the keyword.  What belongs to another class
with a superclass is left out. -/
def Stmt.supers : Stmt → Nat → List (Nat × Occurrence)
  | .expression value, depth => value.supersAt depth
  | .print _ value, depth => value.supersAt depth
  | .var _ none, _ => []
  | .var _ (some value), depth => value.supersAt depth
  | .block body, depth => Stmt.supersAll body (depth + 1)
  | .ifElse condition onTrue none, depth => condition.supersAt depth ++ onTrue.supers depth
  | .ifElse condition onTrue (some onFalse), depth =>
      condition.supersAt depth ++ (onTrue.supers depth ++ onFalse.supers depth)
  | .whileLoop condition body, depth => condition.supersAt depth ++ body.supers depth
  | .breakLoop _, _ => []
  | .function declaration, depth => declaration.supers depth
  | .returnWith _ none, _ => []
  | .returnWith _ (some value), depth => value.supersAt depth
  | .classDecl _ none methods, depth => FunctionDecl.supersAll methods (depth + 1)
  | .classDecl _ (some _) _, _ => []

/-- The `super` keywords in several statements. -/
def Stmt.supersAll : List Stmt → Nat → List (Nat × Occurrence)
  | [], _ => []
  | s :: rest, depth => s.supers depth ++ Stmt.supersAll rest depth

/-- The `super` keywords in a function, whose parameters and body share one scope. -/
def FunctionDecl.supers : FunctionDecl → Nat → List (Nat × Occurrence)
  | ⟨_, _, body⟩, depth => Stmt.supersAll body (depth + 1)

/-- The `super` keywords in several functions. -/
def FunctionDecl.supersAll : List FunctionDecl → Nat → List (Nat × Occurrence)
  | [], _ => []
  | f :: rest, depth => f.supers depth ++ FunctionDecl.supersAll rest depth

end

theorem FunctionDecl.supers_eq (f : FunctionDecl) (depth : Nat) :
    f.supers depth = Stmt.supersAll f.body (depth + 1) := by
  cases f
  rfl

theorem FunctionDecl.mem_supersAll {fs : List FunctionDecl} {depth : Nat}
    {entry : Nat × Occurrence} :
    entry ∈ FunctionDecl.supersAll fs depth ↔ ∃ f ∈ fs, entry ∈ f.supers depth := by
  induction fs with
  | nil => simp [FunctionDecl.supersAll]
  | cons f rest ih => simp [FunctionDecl.supersAll, ih]

namespace Scope

/-! ### The distance of a keyword -/

/-- The keyword leads out of the scopes that were opened on the way to it, and from there as
far as the scopes around say. -/
def Leads (r : Resolution) (scopes : Scopes) (depth : Nat) (entry : Nat × Occurrence) : Prop :=
  ∃ distance opened, scopes.distance? "super" = some distance ∧ entry.1 = depth + opened ∧
    entry.2.id ≤ r.lastId ∧ r.locals[entry.2.id]? = some (distance + opened)

section Leads

variable {r : Resolution} {scopes : Scopes} {depth : Nat} {entry : Nat × Occurrence}

/-- Seen from outside, a scope that does not bind `super` is one more scope on the way. -/
theorem Leads.pop {names : Names} (hnames : names.binds "super" = false)
    (h : Leads r (names :: scopes) (depth + 1) entry) : Leads r scopes depth entry := by
  obtain ⟨distance, opened, hdistance, hentry, hknown, hlocal⟩ := h
  rw [Scopes.distance?_cons, hnames] at hdistance
  obtain ⟨outside, houtside, rfl⟩ := Option.map_eq_some_iff.mp hdistance
  refine ⟨outside, opened + 1, houtside, ?_, hknown, ?_⟩
  · rw [hentry, Nat.add_assoc, Nat.add_comm 1]
  · rw [hlocal, Nat.add_assoc, Nat.add_comm 1]

theorem Leads.unmark {name : String} {complete : Bool} (hname : Ordinary name)
    (h : Leads r (scopes.mark name complete) depth entry) : Leads r scopes depth entry := by
  obtain ⟨distance, opened, hdistance, hrest⟩ := h
  rw [Scopes.distance?_mark_of_ne hname.2] at hdistance
  exact ⟨distance, opened, hdistance, hrest⟩

/-- A declaration never declares `super`. -/
theorem Leads.undeclare {s : Stmt} (hs : ResolvedStmt r scopes s)
    (h : Leads r (scopes.declare s) depth entry) : Leads r scopes depth entry := by
  cases hs with
  | var hnew _ => exact h.unmark hnew.2
  | function hnew _ => exact h.unmark hnew.2
  | classDecl hnew _ _ => exact h.unmark hnew.2
  | _ => exact h

theorem ResolvedExpr.supers {e : Expr} (h : ResolvedExpr r scopes e) :
    ∀ keyword ∈ e.supers, Leads r scopes depth (depth, keyword) := by
  induction h with
  | literal | use _ _ _ | this _ _ _ => simp [Expr.supers]
  | group _ ih | unary _ ih | get _ ih | assign _ _ _ ih => exact ih
  | binary _ _ ihleft ihright | logical _ _ ihleft ihright =>
      exact List.forall_mem_append.mpr ⟨ihleft, ihright⟩
  | conditional _ _ _ ihcondition ihTrue ihFalse =>
      exact List.forall_mem_append.mpr ⟨ihcondition, List.forall_mem_append.mpr ⟨ihTrue, ihFalse⟩⟩
  | @call callee paren arguments _ harguments ihcallee iharguments =>
      refine List.forall_mem_append.mpr ⟨ihcallee, ?_⟩
      clear harguments
      induction arguments with
      | nil => simp [Expr.supersAll]
      | cons e rest ih =>
          rw [List.forall_mem_cons] at iharguments
          exact List.forall_mem_append.mpr ⟨iharguments.1, ih iharguments.2⟩
  | set _ _ ihobject ihvalue => exact List.forall_mem_append.mpr ⟨ihobject, ihvalue⟩
  | @super keyword method distance hname h _ hsuper =>
      intro other hother
      obtain rfl := List.mem_singleton.mp hother
      exact ⟨distance + 1, 0, hsuper, rfl, h.known, by rw [h.distance, hname, hsuper]⟩

theorem ResolvedExpr.supersAt {e : Expr} (h : ResolvedExpr r scopes e) (depth : Nat) :
    ∀ entry ∈ e.supersAt depth, Leads r scopes depth entry := by
  intro entry hentry
  obtain ⟨keyword, hkeyword, rfl⟩ := List.mem_map.mp hentry
  exact h.supers keyword hkeyword

mutual

theorem ResolvedStmt.supers {r : Resolution} {scopes : Scopes} {s : Stmt}
    (h : ResolvedStmt r scopes s) (depth : Nat) :
    ∀ entry ∈ s.supers depth, Leads r scopes depth entry :=
  match h with
  | .expression h => h.supersAt depth
  | .print h => h.supersAt depth
  | @ResolvedStmt.var _ _ _ none _ _ => by simp [Stmt.supers]
  | @ResolvedStmt.var _ _ _ (some value) hnew h => fun entry hentry =>
      ((h value rfl).supersAt depth entry hentry).unmark hnew.2
  | .block h => fun entry hentry => (h.supers (depth + 1) entry hentry).pop rfl
  | @ResolvedStmt.ifElse _ _ _ _ none hcondition hTrue _ _ _ =>
      List.forall_mem_append.mpr ⟨hcondition.supersAt depth, hTrue.supers depth⟩
  | @ResolvedStmt.ifElse _ _ _ _ (some onFalse) hcondition hTrue _ hFalse _ =>
      List.forall_mem_append.mpr ⟨hcondition.supersAt depth,
        List.forall_mem_append.mpr ⟨hTrue.supers depth, (hFalse onFalse rfl).supers depth⟩⟩
  | .whileLoop hcondition hbody _ =>
      List.forall_mem_append.mpr ⟨hcondition.supersAt depth, hbody.supers depth⟩
  | .breakLoop => by simp [Stmt.supers]
  | @ResolvedStmt.returnWith _ _ _ none _ => by simp [Stmt.supers]
  | @ResolvedStmt.returnWith _ _ _ (some value) h => (h value rfl).supersAt depth
  | .function hnew h => fun entry hentry => (h.supers depth entry hentry).unmark hnew.2
  | @ResolvedStmt.classDecl _ _ _ none methods hnew _ hmethods => fun entry hentry => by
      obtain ⟨f, hf, hentry⟩ := FunctionDecl.mem_supersAll.mp hentry
      have hleads := (hmethods f hf).supers (depth + 1) entry hentry
      exact (hleads.pop rfl).unmark hnew.2
  | @ResolvedStmt.classDecl _ _ _ (some _) _ _ _ _ => by simp [Stmt.supers]

theorem ResolvedStmts.supers {r : Resolution} {scopes : Scopes} {body : List Stmt}
    (h : ResolvedStmts r scopes body) (depth : Nat) :
    ∀ entry ∈ Stmt.supersAll body depth, Leads r scopes depth entry :=
  match h with
  | .nil => by simp [Stmt.supersAll]
  | .cons h hrest => List.forall_mem_append.mpr ⟨h.supers depth, fun entry hentry =>
      (hrest.supers depth entry hentry).undeclare h⟩

theorem ResolvedFunction.supers {r : Resolution} {scopes : Scopes} {f : FunctionDecl}
    (h : ResolvedFunction r scopes f) (depth : Nat) :
    ∀ entry ∈ f.supers depth, Leads r scopes depth entry :=
  match h with
  | .mk _ hparams hbody => fun entry hentry =>
      (hbody.supers (depth + 1) entry hentry).pop
        (paramNames_binds fun param hparam => (hparams param hparam).2)

end

end Leads

/-! ### What follows for whole classes and programs -/

/-- Between a method's class and a `super` in the method there are as many scopes as the
table says. -/
theorem supers_of_methods {r : Resolution} {scopes : Scopes} {methods : List FunctionDecl}
    (h : ∀ f ∈ methods, ResolvedFunction r (thisNames :: superNames :: scopes) f) :
    ∀ entry ∈ FunctionDecl.supersAll methods 1,
      entry.2.id ≤ r.lastId ∧ r.locals[entry.2.id]? = some entry.1 := by
  intro entry hentry
  obtain ⟨f, hf, hentry⟩ := FunctionDecl.mem_supersAll.mp hentry
  obtain ⟨distance, opened, hdistance, hdepth, hknown, hlocal⟩ := (h f hf).supers 1 entry hentry
  have hone : Scopes.distance? "super" (thisNames :: superNames :: scopes) = some 1 := by
    rw [Scopes.distance?_cons, Scopes.distance?_cons]
    rfl
  obtain rfl := Option.some.inj (hone.symm.trans hdistance)
  exact ⟨hknown, hdepth ▸ hlocal⟩

/-- There is no `super` outside of all classes. -/
theorem supers_of_program {r : Resolution} {program : List Stmt}
    (h : ResolvedStmts r [] program) (depth : Nat) : Stmt.supersAll program depth = [] := by
  refine List.eq_nil_iff_forall_not_mem.mpr fun entry hentry => ?_
  obtain ⟨distance, opened, hdistance, -⟩ := h.supers depth entry hentry
  rw [Scopes.distance?_nil] at hdistance
  exact absurd hdistance (by simp)

end Scope

end Lox
