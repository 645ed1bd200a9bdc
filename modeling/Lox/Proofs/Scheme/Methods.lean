/-
Which method a name stands for.

A class may declare several methods of one name.  A run puts them into a table one after
the other, and what is put there later takes the place of what was there, so the table has
the last one.  In Scheme the methods are written as a list of pairs in the order in which
they are declared, and `assq` takes the first pair of a name.  So the two choose the same
method if and only if the class declares the name only once.
-/
import Lox.Proofs.Machine.Frames
import Lox.Proofs.Machine.Outcomes
import Lox.Proofs.Scheme.Programs

namespace Lox

/-! ### First and last of a name -/

/-- The first method of a name. -/
structure FirstNamed (methods : List FunctionDecl) (name : String) (i : Nat)
    (method : FunctionDecl) : Prop where
  at_ : methods[i]? = some method
  named : method.name.lexeme = name
  first : ∀ j < i, ∀ other, methods[j]? = some other → other.name.lexeme ≠ name

/-- The last method of a name. -/
structure LastNamed (methods : List FunctionDecl) (name : String) (i : Nat)
    (method : FunctionDecl) : Prop where
  at_ : methods[i]? = some method
  named : method.name.lexeme = name
  last : ∀ j other, i < j → methods[j]? = some other → other.name.lexeme ≠ name

/-- Only one method has the name. -/
def Once (methods : List FunctionDecl) (name : String) : Prop :=
  ∀ (i j : Nat) (method other : FunctionDecl), methods[i]? = some method →
    methods[j]? = some other → method.name.lexeme = name → other.name.lexeme = name → i = j

section Named

variable {methods : List FunctionDecl} {name : String} {i j : Nat} {method other : FunctionDecl}

theorem exists_firstNamed (h : ∃ method ∈ methods, method.name.lexeme = name) :
    ∃ i method, FirstNamed methods name i method := by
  induction methods with
  | nil => simp at h
  | cons f rest ih =>
      by_cases hf : f.name.lexeme = name
      · exact ⟨0, f, rfl, hf, fun j hj => absurd hj (Nat.not_lt_zero j)⟩
      · obtain ⟨method, hmem, hname⟩ := h
        have hrest : method ∈ rest := (List.mem_cons.mp hmem).resolve_left fun heq =>
          hf (heq ▸ hname)
        obtain ⟨i, found, hat, hnamed, hfirst⟩ := ih ⟨method, hrest, hname⟩
        refine ⟨i + 1, found, hat, hnamed, fun j hj other hother => ?_⟩
        cases j with
        | zero =>
            obtain rfl : f = other := Option.some.inj hother
            exact hf
        | succ j => exact hfirst j (Nat.lt_of_succ_lt_succ hj) other hother

theorem exists_lastNamed (h : ∃ method ∈ methods, method.name.lexeme = name) :
    ∃ i method, LastNamed methods name i method := by
  induction methods with
  | nil => simp at h
  | cons f rest ih =>
      by_cases hrest : ∃ method ∈ rest, method.name.lexeme = name
      · obtain ⟨i, found, hat, hnamed, hlast⟩ := ih hrest
        refine ⟨i + 1, found, hat, hnamed, fun j other hj hother => ?_⟩
        cases j with
        | zero => exact absurd hj (Nat.not_lt_zero _)
        | succ j => exact hlast j other (Nat.lt_of_succ_lt_succ hj) hother
      · obtain ⟨method, hmem, hname⟩ := h
        have hf : method = f := (List.mem_cons.mp hmem).resolve_right fun hin =>
          hrest ⟨method, hin, hname⟩
        refine ⟨0, f, rfl, hf ▸ hname, fun j other hj hother heq => ?_⟩
        cases j with
        | zero => exact absurd hj (Nat.lt_irrefl 0)
        | succ j => exact hrest ⟨other, List.mem_of_getElem? hother, heq⟩

/-- The first is the last just if there is no other. -/
theorem first_eq_last_iff (hfirst : FirstNamed methods name i method)
    (hlast : LastNamed methods name j other) : i = j ↔ Once methods name := by
  constructor
  · rintro rfl
    have hat : ∀ k found, methods[k]? = some found → found.name.lexeme = name → k = i := by
      intro k found hfound hname
      rcases Nat.lt_trichotomy k i with hlt | heq | hlt
      · exact absurd hname (hfirst.first k hlt found hfound)
      · exact heq
      · exact absurd hname (hlast.last k found hlt hfound)
    intro k l found found' hfound hfound' hname hname'
    rw [hat k found hfound hname, hat l found' hfound' hname']
  · intro honce
    exact honce i j method other hfirst.at_ hlast.at_ hfirst.named hlast.named

end Named

/-! ### The table of a run -/

namespace Machine

/-- Of the methods with a name, the table has the last one. -/
theorem methodTable_last {ε : Type} (env : ε) {methods : List FunctionDecl} {name : String}
    {i : Nat} {method : FunctionDecl} (h : LastNamed methods name i method) :
    (methodTable env methods).get? name = some ⟨method, env, name = initializerName⟩ := by
  obtain ⟨hlt, hat⟩ := List.getElem?_eq_some_iff.mp h.at_
  have hsplit : methods = methods.take i ++ method :: methods.drop (i + 1) := by
    rw [← hat, List.getElem_cons_drop, List.take_append_drop]
  have hbehind : (methods.drop (i + 1)).reverse.find? (fun f => f.name.lexeme = name) = none := by
    rw [List.find?_eq_none]
    intro other hother
    obtain ⟨k, hk⟩ := List.mem_iff_getElem?.mp (List.mem_reverse.mp hother)
    rw [List.getElem?_drop] at hk
    simpa using h.last (i + 1 + k) other (by omega) hk
  have hfind : methods.reverse.find? (fun f => f.name.lexeme = name) = some method := by
    rw [hsplit, List.reverse_append, List.reverse_cons, List.append_assoc, List.find?_append,
      hbehind, Option.none_or, List.singleton_append, List.find?_cons_of_pos (by simp [h.named])]
  rw [methodTable, Scope.get?_foldl_insert (fun f : FunctionDecl => f.name.lexeme)
    (fun f => (⟨f, env, f.name.lexeme = initializerName⟩ : Closure ε)), hfind, Option.map_some,
    Option.some_or, h.named]

end Machine

/-- The variable that an assignment finds is read back with the value assigned. -/
theorem Memory.read?_bindAt_of_holder? {m : Memory} {env : Env} {name : String} {a : Address}
    (h : m.holder? env name = some a) (value : Value) :
    (m.bindAt a name value).read? env name = some value := by
  have ha : (m.frame a).binds name = true := by simpa using List.find?_some h
  induction env with
  | nil => simp [holder?] at h
  | cons b outer ih =>
      rw [holder?, List.find?_cons] at h
      rw [read?, List.findSome?_cons, frame_bindAt]
      by_cases hb : (m.frame b).binds name = true
      · rw [hb] at h
        obtain rfl := Option.some.inj h
        rw [if_pos ⟨rfl, lt_size_of_binds ha⟩, Bindings.get?_insert_self]
      · have hne : ¬(a = b ∧ a < m.frames.size) := fun heq => hb (heq.1 ▸ ha)
        have hnone : (m.frame b).get? name = none := by
          simpa [Bindings.binds] using hb
        rw [Bool.not_eq_true] at hb
        rw [hb] at h
        rw [if_neg hne, hnone]
        exact ih h

/-- The class that a declaration makes has that table. -/
theorem Machine.finishClass_own {s : State} {name : Token} {superclass : Option Class}
    {methods : List FunctionDecl}
    (h : (finishClass s name superclass methods).control = .complete .normal) :
    ∃ class_, (finishClass s name superclass methods).memory.read? s.env name.lexeme
        = some (.classValue class_) ∧
      class_.own.methods = methodTable (classEnv s superclass).1 methods := by
  generalize hend : finishClass s name superclass methods = t at h ⊢
  cases hend ▸ finishClass_finished s name superclass methods with
  | done a hholder => exact ⟨_, Memory.read?_bindAt_of_holder? hholder _, rfl⟩
  | failed => cases h

/-! ### The list in Scheme -/

namespace Scheme

/-- What `assq` finds under a name among `(cons 'name value)`: the value of the first pair
with that name. -/
def assq? (name : String) : List Marked → Option Marked
  | [] => none
  | .list [.symbol "cons" _, .quoted (.symbol key _), value] :: rest =>
      if key = name then some value else assq? name rest
  | _ :: rest => assq? name rest

/-- The procedure of a method that stands at a place: given an instance, it yields the
method bound to the instance. -/
def methodDatum (p : Place) (method : FunctionDecl) : Marked :=
  procedure [mention p "this"]
    [functionDatum p (method.name.lexeme = initializerName) method]

theorem assq?_methodData {p : Place} {position : Nat} {methods : List FunctionDecl}
    {name : String} {i : Nat} {method : FunctionDecl} (h : FirstNamed methods name i method) :
    assq? name (methodData p position methods)
      = some (methodDatum (p.part (position + i) (.method method)) method) := by
  induction methods generalizing position i with
  | nil => exact absurd h.at_ (by simp)
  | cons f rest ih =>
      have hstep : assq? name (methodData p position (f :: rest))
          = if f.name.lexeme = name then some (methodDatum (p.part position (.method f)) f)
            else assq? name (methodData p (position + 1) rest) := by
        rw [methodData]
        rfl
      rw [hstep]
      cases i with
      | zero =>
          obtain rfl : f = method := Option.some.inj h.at_
          rw [if_pos h.named]
          rfl
      | succ i =>
          have hrest : FirstNamed rest name i method :=
            ⟨h.at_, h.named, fun j hj other hother => h.first (j + 1) (Nat.succ_lt_succ hj) other hother⟩
          rw [if_neg (h.first 0 (Nat.zero_lt_succ i) f rfl), ih hrest, Nat.add_assoc, Nat.add_comm 1 i]

/-- A datum, or something that stands in it. -/
inductive Datum.Contains {α : Type} : Datum α → Datum α → Prop
  | self {datum : Datum α} : Contains datum datum
  | item {items : List (Datum α)} {datum inner : Datum α} (hmem : datum ∈ items)
      (h : Contains datum inner) : Contains (.list items) inner

namespace Datum

variable {α : Type} {datum inner : Datum α}

theorem Contains.trans {innermost : Datum α} (h : datum.Contains inner)
    (h' : inner.Contains innermost) : datum.Contains innermost := by
  induction h with
  | self => exact h'
  | item hmem _ ih => exact .item hmem (ih h')

end Datum

section Contains

variable {p : Place} {datum inner : Marked} {operands params body : List Marked}

theorem contains_applied {operator : String} (hmem : datum ∈ operands)
    (h : datum.Contains inner) : (applied operator operands).Contains inner :=
  .item (List.mem_cons_of_mem _ hmem) h

theorem contains_procedure (hmem : datum ∈ body) (h : datum.Contains inner) :
    (procedure params body).Contains inner :=
  .item (List.mem_cons_of_mem _ (List.mem_cons_of_mem _ hmem)) h

/-- Each statement of a row is written in the row, be it behind declarations. -/
theorem rowData_contains (inside : Bool) (position : Nat) {i : Nat} {statements : List Stmt}
    {s : Stmt} (h : statements[i]? = some s) : ∃ datum ∈ rowData p inside position statements,
      datum.Contains (stmtDatum (p.part (position + i) (.stmt s)) s) := by
  induction statements generalizing inside position i with
  | nil => exact absurd h (by simp)
  | cons first rest ih =>
      rw [rowData]
      cases hbinder : binder? first with
      | none =>
          cases i with
          | zero =>
              obtain rfl : first = s := Option.some.inj h
              exact ⟨_, List.mem_cons_self, .self⟩
          | succ i =>
              obtain ⟨datum, hmem, hcontains⟩ := ih inside (position + 1) h
              rw [Nat.add_assoc, Nat.add_comm 1 i] at hcontains
              exact ⟨datum, List.mem_cons_of_mem _ hmem, hcontains⟩
      | some binder =>
          obtain ⟨keyword, name⟩ := binder
          refine ⟨_, List.mem_singleton_self _, ?_⟩
          cases i with
          | zero =>
              obtain rfl : first = s := Option.some.inj h
              exact .item (List.mem_cons_of_mem _ List.mem_cons_self)
                (.item List.mem_cons_self (.item (List.mem_cons_of_mem _ List.mem_cons_self) .self))
          | succ i =>
              obtain ⟨datum, hmem, hcontains⟩ := ih true (position + 1) h
              rw [Nat.add_assoc, Nat.add_comm 1 i] at hcontains
              exact .item (List.mem_cons_of_mem _ (List.mem_cons_of_mem _ hmem)) hcontains

theorem topData_contains (position : Nat) {i : Nat} {statements : List Stmt} {s : Stmt}
    (h : statements[i]? = some s) : ∃ datum ∈ topData p position statements,
      datum.Contains (stmtDatum (p.part (position + i) (.stmt s)) s) := by
  induction statements generalizing position i with
  | nil => exact absurd h (by simp)
  | cons first rest ih =>
      rw [topData]
      cases i with
      | zero =>
          obtain rfl : first = s := Option.some.inj h
          refine ⟨_, List.mem_cons_self, ?_⟩
          rw [topDatum]
          split
          · exact contains_applied (List.mem_cons_of_mem _ List.mem_cons_self) .self
          · exact .self
      | succ i =>
          obtain ⟨datum, hmem, hcontains⟩ := ih (position + 1) h
          rw [Nat.add_assoc, Nat.add_comm 1 i] at hcontains
          exact ⟨datum, List.mem_cons_of_mem _ hmem, hcontains⟩

theorem methodData_contains (position : Nat) {i : Nat} {methods : List FunctionDecl}
    {f : FunctionDecl} (h : methods[i]? = some f) : ∃ datum ∈ methodData p position methods,
      datum.Contains (functionDatum (p.part (position + i) (.method f))
        (f.name.lexeme = initializerName) f) := by
  induction methods generalizing position i with
  | nil => exact absurd h (by simp)
  | cons first rest ih =>
      rw [methodData]
      cases i with
      | zero =>
          obtain rfl : first = f := Option.some.inj h
          exact ⟨_, List.mem_cons_self, contains_applied (List.mem_cons_of_mem _ List.mem_cons_self)
            (contains_procedure List.mem_cons_self .self)⟩
      | succ i =>
          obtain ⟨datum, hmem, hcontains⟩ := ih (position + 1) h
          rw [Nat.add_assoc, Nat.add_comm 1 i] at hcontains
          exact ⟨datum, List.mem_cons_of_mem _ hmem, hcontains⟩

/-- What is written for the body of a function is written in its procedure. -/
theorem functionDatum_contains (isInitializer : Bool) (name : Token) (params : List Token)
    {statements : List Stmt} {i : Nat} {s : Stmt} (h : statements[i]? = some s) :
    (functionDatum p isInitializer ⟨name, params, statements⟩).Contains
      (stmtDatum (p.part (params.length + i) (.stmt s)) s) := by
  obtain ⟨datum, hmem, hcontains⟩ :=
    rowData_contains (p := p) statements.isEmpty params.length h
  have hescape : (applied "call/cc" [procedure [mention p "%return"]
      (rowData p statements.isEmpty params.length statements)]).Contains
        (stmtDatum (p.part (params.length + i) (.stmt s)) s) :=
    contains_applied List.mem_cons_self (contains_procedure hmem hcontains)
  rw [functionDatum]
  refine contains_applied (List.mem_cons_of_mem _ List.mem_cons_self)
    (contains_procedure List.mem_cons_self ?_)
  split
  · exact contains_applied List.mem_cons_self hescape
  · exact hescape

/-- What is written for a part of a program that statements stand in. -/
def partDatum? (p : Place) : Option Marked :=
  match p.node with
  | .stmt s => some (stmtDatum p s)
  | .function f => some (functionDatum p false f)
  | .method f => some (functionDatum p (f.name.lexeme = initializerName) f)
  | _ => none

/-- What is written for a statement is written in the statement that it stands in. -/
theorem stmtDatum_contains {s inner : Stmt} {i : Nat}
    (hpart : (Node.ofStmt s)[i]? = some (.stmt inner)) :
    (stmtDatum p s).Contains (stmtDatum (p.part i (.stmt inner)) inner) := by
  have hmem := List.mem_of_getElem? hpart
  cases s with
  | block body =>
      rw [Node.ofStmt, List.getElem?_map, Option.map_eq_some_iff] at hpart
      obtain ⟨s, hs, heq⟩ := hpart
      obtain rfl := Node.stmt.inj heq
      obtain ⟨datum, hdatum, hcontains⟩ :=
        rowData_contains (p := p) body.isEmpty 0 hs
      rw [Nat.zero_add] at hcontains
      rw [stmtDatum]
      exact .item (List.mem_cons_of_mem _ (List.mem_cons_of_mem _ hdatum)) hcontains
  | ifElse condition onTrue onFalse =>
      rcases i with _ | _ | i
      · exact absurd hpart (by simp [Node.ofStmt])
      · obtain rfl : onTrue = inner := Node.stmt.inj (Option.some.inj hpart)
        cases onFalse <;>
          exact contains_applied (List.mem_cons_of_mem _ List.mem_cons_self) .self
      · cases onFalse with
        | none => exact absurd hpart (by simp [Node.ofStmt])
        | some onFalse =>
            cases i with
            | zero =>
                obtain rfl : onFalse = inner := Node.stmt.inj (Option.some.inj hpart)
                exact contains_applied
                  (List.mem_cons_of_mem _ (List.mem_cons_of_mem _ List.mem_cons_self)) .self
            | succ i => exact absurd hpart (by simp [Node.ofStmt])
  | whileLoop condition body =>
      rcases i with _ | _ | i
      · exact absurd hpart (by simp [Node.ofStmt])
      · obtain rfl : body = inner := Node.stmt.inj (Option.some.inj hpart)
        refine contains_applied List.mem_cons_self (contains_procedure List.mem_cons_self ?_)
        refine .item (List.mem_cons_of_mem _ (List.mem_cons_of_mem _ (List.mem_cons_of_mem _
          List.mem_cons_self))) (contains_applied (List.mem_cons_of_mem _ List.mem_cons_self) ?_)
        exact contains_applied List.mem_cons_self .self
      · exact absurd hpart (by simp [Node.ofStmt])
  | _ => exact absurd hmem (by simp [Node.ofStmt])

/-- What is written for a method is written in the list of its class. -/
theorem classDatum_contains {name : Token} {superclass : Option Occurrence}
    {methods : List FunctionDecl} {f : FunctionDecl} {i : Nat}
    (hpart : (Node.ofStmt (.classDecl name superclass methods))[i]? = some (.method f)) :
    (stmtDatum p (.classDecl name superclass methods)).Contains
      (functionDatum (p.part i (.method f)) (f.name.lexeme = initializerName) f) := by
  rw [Node.ofStmt] at hpart
  rcases Nat.lt_or_ge i superclass.toList.length with hlt | hle
  · rw [List.getElem?_append_left (by simpa using hlt)] at hpart
    exact absurd (List.mem_of_getElem? hpart) (by simp)
  · rw [List.getElem?_append_right (by simpa using hle), List.length_map, List.getElem?_map,
      Option.map_eq_some_iff] at hpart
    obtain ⟨f', hf, heq⟩ := hpart
    obtain rfl := Node.method.inj heq
    obtain ⟨datum, hdatum, hcontains⟩ :=
      methodData_contains (p := p) superclass.toList.length hf
    rw [Nat.add_sub_cancel' hle] at hcontains
    rw [stmtDatum]
    refine .item (List.mem_cons_of_mem _ (List.mem_cons_of_mem _ List.mem_cons_self)) ?_
    refine contains_applied
      (List.mem_cons_of_mem _ (List.mem_cons_of_mem _ List.mem_cons_self)) ?_
    exact contains_applied hdatum hcontains

/-- What is written for a statement of a body is written in the procedure. -/
theorem bodyDatum_contains {isInitializer : Bool} {f : FunctionDecl} {s : Stmt} {i : Nat}
    (hpart : (Node.ofFunction f)[i]? = some (.stmt s)) :
    (functionDatum p isInitializer f).Contains (stmtDatum (p.part i (.stmt s)) s) := by
  obtain ⟨name, params, body⟩ := f
  rw [Node.ofFunction] at hpart
  rcases Nat.lt_or_ge i params.length with hlt | hle
  · rw [List.getElem?_append_left (by simpa using hlt)] at hpart
    exact absurd (List.mem_of_getElem? hpart) (by simp)
  · rw [List.getElem?_append_right (by simpa using hle), List.length_map, List.getElem?_map,
      Option.map_eq_some_iff] at hpart
    obtain ⟨s', hs, heq⟩ := hpart
    obtain rfl := Node.stmt.inj heq
    have hcontains := functionDatum_contains (p := p) isInitializer name params hs
    rwa [Nat.add_sub_cancel' hle] at hcontains

/-- What is written for a part is written in what it stands in. -/
theorem contains_part {i : Nat} {node : Node} {outer : Marked} (hpart : p.node.parts[i]? = some node)
    (houter : partDatum? p = some outer) (hinner : partDatum? (p.part i node) = some inner) :
    outer.Contains inner := by
  obtain ⟨site, n⟩ := p
  have hmem : node ∈ n.parts := List.mem_of_getElem? hpart
  cases n with
  | stmt s =>
      obtain rfl := Option.some.inj houter
      cases node with
      | stmt inner =>
          obtain rfl := Option.some.inj hinner
          exact stmtDatum_contains hpart
      | function f =>
          obtain rfl := Option.some.inj hinner
          cases s with
          | function declaration =>
              cases i with
              | zero =>
                  obtain rfl := Node.function.inj (Option.some.inj hpart)
                  exact .self
              | succ i => exact absurd hpart (by simp [Node.parts, Node.ofStmt])
          | _ => exact absurd hmem (by simp [Node.parts, Node.ofStmt])
      | method f =>
          obtain rfl := Option.some.inj hinner
          cases s with
          | classDecl name superclass methods => exact classDatum_contains hpart
          | _ => exact absurd hmem (by simp [Node.parts, Node.ofStmt])
      | _ => cases hinner
  | function f | method f =>
      obtain rfl := Option.some.inj houter
      cases node with
      | stmt inner =>
          obtain rfl := Option.some.inj hinner
          exact bodyDatum_contains hpart
      | function _ | method _ => exact absurd hmem (by simp [Node.parts, Node.ofFunction])
      | _ => cases hinner
  | _ => cases houter

/-- A program is not a part of anything. -/
theorem program_not_mem_parts (n : Node) (body : List Stmt) : .program body ∉ n.parts := by
  cases n with
  | stmt s => cases s <;> simp [Node.parts, Node.ofStmt]
  | expr e => cases e <;> simp [Node.parts, Node.ofExpr]
  | _ => simp [Node.parts, Node.ofFunction]

/-- No statement stands in an expression. -/
theorem eq_expr_of_mem_ofExpr {e : Expr} {node : Node} (h : node ∈ Node.ofExpr e) :
    ∃ e', node = .expr e' := by
  cases e <;> simp only [Node.ofExpr, List.mem_cons, List.mem_map, List.not_mem_nil] at h <;> grind

/-- What is written for a part of a program is written in the program. -/
theorem program_contains {program : List Stmt} (hp : p.IsIn program)
    (hinner : partDatum? p = some inner) :
    ∃ datum ∈ programData program, datum.Contains inner := by
  induction hp generalizing inner with
  | self => cases hinner
  | @inside q i node hq hpart ih =>
      cases houter : partDatum? q with
      | some outer =>
          obtain ⟨datum, hdatum, hcontains⟩ := ih houter
          exact ⟨datum, hdatum, hcontains.trans (contains_part hpart houter hinner)⟩
      | none =>
          -- Only the program itself has statements for parts and no datum of its own.
          cases hq with
          | self =>
              obtain ⟨s, hs, rfl⟩ : ∃ s, program[i]? = some s ∧ Node.stmt s = node := by
                simpa [Place.whole, Node.parts] using hpart
              obtain rfl := Option.some.inj hinner
              have htop := topData_contains (p := .whole program) 0 hs
              rwa [Nat.zero_add] at htop
          | @inside r j outer _ houter' =>
              have hnode : node ∈ outer.parts := List.mem_of_getElem? hpart
              cases outer with
              | program body =>
                  exact absurd (List.mem_of_getElem? houter') (program_not_mem_parts _ body)
              | expr e =>
                  obtain ⟨e', rfl⟩ := eq_expr_of_mem_ofExpr hnode
                  cases hinner
              | param name => cases hnode
              | _ => cases houter

end Contains

/-! ### The method that is chosen -/

/-- **Two methods of one name.**  In what is written for an accepted program, each class
declaration has a list with a pair for every method.  Under the name of a method, the first
pair of the list is written for the first method of that name, and the class that a run makes
has the last one.  They are the same if and only if the class declares the name only once. -/
theorem chosen_method {session after : Session} {source : String} {program : List Stmt}
    {found : List (Nat × Nat)} (h : session.Accepts source program found after) {p : Place}
    (hp : p.IsIn program) {name : Token} {superclass : Option Occurrence}
    {methods : List FunctionDecl} (hnode : p.node = .stmt (.classDecl name superclass methods))
    {m : String} (hm : ∃ method ∈ methods, method.name.lexeme = m) :
    let entries := methodData p superclass.toList.length methods
    (∃ text, Scheme.program program = prelude ++ text ∧
      read text = some ((programData program).map Datum.plain)) ∧
    (∃ datum ∈ programData program, datum.Contains
      (applied "lox-class" [.string name.lexeme, mention p "%super", applied "list" entries])) ∧
    ∃ (i j : Nat) (first last : FunctionDecl),
      FirstNamed methods m i first ∧ LastNamed methods m j last ∧
      assq? m entries
        = some (methodDatum (p.part (superclass.toList.length + i) (.method first)) first) ∧
      (∀ (s : Machine.State) (above : Option Class),
        (Machine.finishClass s name above methods).control = .complete .normal →
        ∃ class_, (Machine.finishClass s name above methods).memory.read? s.env name.lexeme
            = some (.classValue class_) ∧
          class_.own.methods.get? m
            = some ⟨last, (Machine.classEnv s above).1, m = initializerName⟩) ∧
      (i = j ↔ Once methods m) := by
  intro entries
  have hworded : ∀ s ∈ program, s.Worded vocabulary :=
    (Session.parse_ok h.read.1).2.worded (allows_ofSource source)
  have hpart : partDatum? p = some (stmtDatum p (.classDecl name superclass methods)) := by
    rw [partDatum?, hnode]
  obtain ⟨datum, hdatum, hcontains⟩ := program_contains hp hpart
  have hclass : (stmtDatum p (.classDecl name superclass methods)).Contains
      (applied "lox-class" [.string name.lexeme, mention p "%super", applied "list" entries]) := by
    rw [stmtDatum]
    exact .item (List.mem_cons_of_mem _ (List.mem_cons_of_mem _ List.mem_cons_self)) .self
  obtain ⟨i, first, hfirst⟩ := exists_firstNamed hm
  obtain ⟨j, last, hlast⟩ := exists_lastNamed hm
  refine ⟨⟨topTexts program, program_eq hworded, read_topTexts hworded⟩,
    ⟨datum, hdatum, hcontains.trans hclass⟩, i, j, first, last, hfirst, hlast,
    assq?_methodData hfirst, fun s above hdone => ?_, first_eq_last_iff hfirst hlast⟩
  obtain ⟨class_, hread, hown⟩ := Machine.finishClass_own hdone
  exact ⟨class_, hread, hown ▸ Machine.methodTable_last _ hlast⟩

/-! ### Two methods of one name -/

/-- A method that prints a truth value. -/
def printing (value : Bool) : FunctionDecl :=
  ⟨⟨.identifier, "m", 1⟩, [], [.print ⟨.kwPrint, "print", 1⟩ (.literal (.bool value))]⟩

/-- The class that declares it twice, with either value. -/
def repeating : Stmt :=
  .classDecl ⟨.identifier, "A", 1⟩ none [printing true, printing false]

theorem repeating_accepted : Session.new.Accepts
    "class A \x7b m() \x7b print true; \x7d m() \x7b print false; \x7d \x7d" [repeating] []
    Session.new := by
  unfold Session.Accepts Session.analyse Session.parse
  cbv

theorem repeating_isIn :
    Place.IsIn [repeating] ((Place.whole [repeating]).part 0 (.stmt repeating)) :=
  .inside .self rfl

/-- The list in Scheme yields the one method and the table of a run has the other, and they are
not written alike. -/
theorem earlier_method_chosen : ∃ program found after p,
    Session.new.Accepts "class A \x7b m() \x7b print true; \x7d m() \x7b print false; \x7d \x7d"
      program found after ∧ p.IsIn program ∧
    ∃ name first last, p.node = .stmt (.classDecl name none [first, last]) ∧
      assq? "m" (methodData p 0 [first, last])
        = some (methodDatum (p.part 0 (.method first)) first) ∧
      (∀ env : Env, (Machine.methodTable env [first, last]).get? "m" = some ⟨last, env, false⟩) ∧
      (methodDatum (p.part 0 (.method first)) first).plain
        ≠ (methodDatum (p.part 1 (.method last)) last).plain := by
  refine ⟨[repeating], [], Session.new, _, repeating_accepted, repeating_isIn, _, printing true,
    printing false, rfl, rfl, fun _ => rfl, ?_⟩
  simp [printing, methodDatum, functionDatum, paramData, rowData, binder?, stmtDatum, exprDatum,
    literalDatum, ofLiteral, initializerName]

/-- In Scheme the first of the two methods is chosen, in a run the second. -/
theorem methods_of_one_name : ∃ program found after p,
    Session.new.Accepts "class A \x7b m() \x7b print true; \x7d m() \x7b print false; \x7d \x7d"
      program found after ∧ p.IsIn program ∧
    ∃ name methods i j first last, p.node = .stmt (.classDecl name none methods) ∧
      FirstNamed methods "m" i first ∧ LastNamed methods "m" j last ∧ i ≠ j ∧
      assq? "m" (methodData p 0 methods)
        = some (methodDatum (p.part (0 + i) (.method first)) first) := by
  have htwice : ¬Once [printing true, printing false] "m" := fun honce =>
    absurd (honce 0 1 (printing true) (printing false) rfl rfl rfl rfl) (by decide)
  obtain ⟨-, -, i, j, first, last, hfirst, hlast, hlist, -, hsame⟩ :=
    chosen_method repeating_accepted repeating_isIn rfl (m := "m")
      ⟨printing true, List.mem_cons_self, rfl⟩
  exact ⟨[repeating], [], Session.new, _, repeating_accepted, repeating_isIn, _, _, i, j, first,
    last, rfl, hfirst, hlast, fun heq => htwice (hsame.mp heq), hlist⟩

end Scheme

end Lox
