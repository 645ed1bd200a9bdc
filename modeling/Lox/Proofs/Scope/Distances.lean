/-
Distances, read off the program.

Around a place there are scopes: a block is one, a function with its parameters is one,
and the methods of a class stand in one that declares `this`, and in a further one that
declares `super` if the class has a superclass.  A block or a function has declared what
its parts up to the one at hand declare, which one included: so a variable counts as
declared in its own initializer, and what is declared further behind does not count.

The distance of an occurrence is the number of scopes between it and the nearest one that
has declared its name.  None of this speaks of how a program is walked through; that the
analysis finds these distances, for these occurrences, and nothing else is shown along its
walk, in which the open scopes are those around the place it has come to (`Shows`).
-/
import Mathlib
import Lox.Proofs.Grammar.Built
import Lox.Proofs.Grammar.Numbering
import Lox.Proofs.Scope.Exactness
import Lox.Proofs.Session.Accepted
import Lox.Proofs.Syntax.Mentions

namespace Lox

/-! ### What the scopes around a place have declared -/

namespace Node

/-- The names that some parts declare in the scope they stand in. -/
def declaredNames (row : List Node) : List String :=
  (row.filterMap declared?).map Token.lexeme

/-- The names that each scope which a part opens around its parts has declared when the
part at a position has come up, the innermost scope first. -/
def opened : Node → Nat → List (List String)
  | stmt (.classDecl _ superclass _), position =>
      if superclass.toList.length ≤ position then
        ["this"] :: superclass.toList.map (fun _ => ["super"])
      else []
  | node, position =>
      if node.isScope then [declaredNames (node.parts.take (position + 1))] else []

end Node

namespace Place

/-- The names that each scope around a place has declared, the innermost first.  The
globals are in none. -/
def scopes (p : Place) : List (List String) :=
  p.site.flatMap fun (node, position) => node.opened position

/-- Of some scopes the first that has declared a name comes behind so many. -/
structure FirstIn (scopes : List (List String)) (distance : Nat) (name : String) : Prop where
  intro ::
  found : ∃ names, scopes[distance]? = some names ∧ name ∈ names
  first : ∀ nearer < distance, ∀ names, scopes[nearer]? = some names → name ∉ names

/-- The nearest scope around a place that has declared a name is so many scopes away. -/
def DeclaredAt (p : Place) (distance : Nat) (name : String) : Prop :=
  FirstIn p.scopes distance name

section Nearest

variable {scopes : List (List String)} {names : List String} {distance : Nat} {name : String}

theorem not_firstIn_nil : ¬FirstIn [] distance name := by
  rintro ⟨⟨names, hnames, -⟩, -⟩
  simp at hnames

theorem firstIn_of_mem (hname : name ∈ names) :
    FirstIn (names :: scopes) distance name ↔ distance = 0 := by
  constructor
  · intro h
    by_contra hne
    exact h.first 0 (Nat.pos_of_ne_zero hne) names rfl hname
  · rintro rfl
    exact ⟨⟨names, rfl, hname⟩, fun nearer hlt => absurd hlt (Nat.not_lt_zero _)⟩

theorem firstIn_of_not_mem (hname : name ∉ names) :
    FirstIn (names :: scopes) distance name ↔
      ∃ outside, distance = outside + 1 ∧ FirstIn scopes outside name := by
  constructor
  · rintro ⟨⟨found, hfound, hmem⟩, hfirst⟩
    cases distance with
    | zero =>
        obtain rfl : names = found := Option.some.inj hfound
        exact absurd hmem hname
    | succ outside =>
        refine ⟨outside, rfl, ⟨found, hfound, hmem⟩, fun nearer hlt others hothers => ?_⟩
        exact hfirst (nearer + 1) (Nat.succ_lt_succ hlt) others hothers
  · rintro ⟨outside, rfl, hfound, hfirst⟩
    refine ⟨hfound, fun nearer hlt others hothers => ?_⟩
    cases nearer with
    | zero =>
        obtain rfl : names = others := Option.some.inj hothers
        exact hname
    | succ nearer => exact hfirst nearer (Nat.lt_of_succ_lt_succ hlt) others hothers

/-- There is such a scope just if one of the scopes has declared the name. -/
theorem exists_firstIn_iff : (∃ distance, FirstIn scopes distance name) ↔
    ∃ names ∈ scopes, name ∈ names := by
  induction scopes with
  | nil => simp [not_firstIn_nil]
  | cons names rest ih =>
      by_cases hname : name ∈ names
      · simp [firstIn_of_mem hname, hname]
      · simp [firstIn_of_not_mem hname, hname, ← ih]

end Nearest

variable {p : Place} {position : Nat} {node : Node}

theorem scopes_part : (p.part position node).scopes = p.node.opened position ++ p.scopes :=
  rfl

/-- Most parts open no scope. -/
theorem scopes_part_of_plain (hscope : p.node.isScope = false) (hclass : p.node.isClass = false) :
    (p.part position node).scopes = p.scopes := by
  have hnone : p.node.opened position = [] := by
    unfold Node.opened
    split
    · rename_i heq
      rw [heq] at hclass
      exact absurd hclass (by simp [Node.isClass])
    · rw [hscope]
      rfl
  rw [scopes_part, hnone, List.nil_append]

/-- The scopes that a part of a place stands in, when some parts of the place are done
with. -/
def behind (p : Place) (done : List Node) : List (List String) :=
  if p.node.isScope then Node.declaredNames done :: p.scopes else p.scopes

/-- Such a part is in scopes that have declared its own name too. -/
theorem scopes_part_of_parts {done row : List Node} (hclass : p.node.isClass = false)
    (hparts : p.node.parts = done ++ node :: row) :
    (p.part done.length node).scopes = p.behind (done ++ [node]) := by
  have htake : p.node.parts.take (done.length + 1) = done ++ [node] := by
    rw [hparts, List.take_append, List.take_of_length_le (Nat.le_succ _),
      Nat.add_sub_cancel_left]
    rfl
  have hopened : p.node.opened done.length
      = if p.node.isScope then [Node.declaredNames (done ++ [node])] else [] := by
    unfold Node.opened
    split
    · rename_i heq
      rw [heq] at hclass
      exact absurd hclass (by simp [Node.isClass])
    · rw [htake]
  rw [scopes_part, hopened, behind]
  split <;> rfl

end Place

namespace Scope

open Place

/-! ### Scopes that show what is declared -/

/-- The scopes bind these names, and no others. -/
def Shows : Scopes → List (List String) → Prop :=
  List.Forall₂ fun names declared => ∀ name, names.binds name = true ↔ name ∈ declared

namespace Shows

variable {scopes : Scopes} {declared : List (List String)} {p : Place} {position : Nat}
  {node : Node} {done : List Node}

theorem distance?_eq_some_iff (h : Shows scopes declared) (name : String) (distance : Nat) :
    scopes.distance? name = some distance ↔ FirstIn declared distance name := by
  induction h generalizing distance with
  | nil => simp [Scopes.distance?_nil, not_firstIn_nil]
  | @cons names row _ _ hnames _ ih =>
      rw [Scopes.distance?_cons]
      by_cases hname : names.binds name = true
      · rw [if_pos hname, firstIn_of_mem ((hnames name).mp hname), Option.some_inj, eq_comm]
      · rw [if_neg hname, firstIn_of_not_mem (fun h => hname ((hnames name).mpr h)),
          Option.map_eq_some_iff]
        simp only [ih, and_comm, eq_comm]

theorem part (h : Shows scopes p.scopes) (hscope : p.node.isScope = false)
    (hclass : p.node.isClass = false) : Shows scopes (p.part position node).scopes := by
  rwa [scopes_part_of_plain hscope hclass]

/-- Whether a declaration is complete does not matter. -/
theorem remark {name : String} {complete : Bool} (h : Shows (scopes.mark name complete) declared)
    (complete' : Bool) : Shows (scopes.mark name complete') declared := by
  cases scopes with
  | nil => exact h
  | cons names outer =>
      cases h with
      | cons hnames houter =>
          refine .cons (fun other => ?_) houter
          rw [← hnames, Bindings.binds_insert, Bindings.binds_insert]

/-- A declaration in the innermost scope; outside of all scopes nothing is declared. -/
theorem mark (h : Shows scopes (p.behind done)) (hplace : p.node.isScope = true ∨ p.scopes = [])
    {name : Token} (hname : node.declared? = some name) :
    Shows (scopes.mark name.lexeme true) (p.behind (done ++ [node])) := by
  by_cases hscope : p.node.isScope = true
  · rw [behind, if_pos hscope] at h ⊢
    cases h with
    | cons hnames houter =>
        refine .cons (fun other => ?_) houter
        rw [Bindings.binds_insert, Bool.or_eq_true, hnames]
        simp [Node.declaredNames, hname, or_comm, eq_comm]
  · rw [behind, if_neg hscope, hplace.resolve_left hscope] at h ⊢
    cases h
    exact .nil

theorem skip (h : Shows scopes (p.behind done)) (hname : node.declared? = none) :
    Shows scopes (p.behind (done ++ [node])) := by
  have hsame : Node.declaredNames (done ++ [node]) = Node.declaredNames done := by
    simp [Node.declaredNames, hname]
  rwa [behind, hsame]

/-- A statement. -/
theorem declare (h : Shows scopes (p.behind done))
    (hplace : p.node.isScope = true ∨ p.scopes = []) (s : Stmt) :
    Shows (scopes.declare s) (p.behind (done ++ [.stmt s])) := by
  cases s with
  | var name initializer => exact h.mark hplace rfl
  | function declaration => exact h.mark hplace rfl
  | classDecl name superclass methods => exact h.mark hplace rfl
  | _ => exact h.skip rfl

/-- A block or a function is a scope of its own. -/
theorem push (h : Shows scopes p.scopes) (hscope : p.node.isScope = true) :
    Shows ([] :: scopes) (p.behind []) := by
  rw [behind, if_pos hscope]
  exact .cons (fun name => by simp [Bindings.binds, Node.declaredNames]) h

/-- The parameters of a function. -/
theorem params (h : Shows scopes p.scopes) (hscope : p.node.isScope = true) (row : List Token) :
    Shows (paramNames row :: scopes) (p.behind (row.map .param)) := by
  rw [behind, if_pos hscope]
  refine .cons (fun name => ?_) h
  have hnames : Node.declaredNames (row.map .param) = row.map Token.lexeme := by
    rw [Node.declaredNames, List.filterMap_map]
    exact congrArg (List.map Token.lexeme) List.filterMap_some
  rw [hnames, Bindings.binds, get?_paramNames]
  by_cases hmem : name ∈ row.map Token.lexeme
  · rw [if_pos hmem]
    exact iff_of_true rfl hmem
  · rw [if_neg hmem]
    exact iff_of_false Bool.false_ne_true hmem

/-- The methods of a class. -/
theorem methods (h : Shows scopes p.scopes) {name : Token} {superclass : Option Occurrence}
    {declarations : List FunctionDecl}
    (hnode : p.node = .stmt (.classDecl name superclass declarations))
    (hposition : superclass.toList.length ≤ position) :
    Shows (classScopes scopes superclass) (p.part position node).scopes := by
  have hone : ∀ (word : String) (name : String),
      Bindings.binds name [(word, true)] = true ↔ name ∈ [word] := by
    intro word name
    by_cases heq : word = name
    · simp [Bindings.binds, Bindings.get?, heq]
    · simp [Bindings.binds, Bindings.get?, heq, Ne.symm heq]
  rw [scopes_part, hnode, Node.opened, if_pos hposition]
  cases superclass with
  | none => exact .cons (hone _) h
  | some occurrence => exact .cons (hone _) (.cons (hone _) h)

end Shows

/-! ### What the analysis lists -/

end Scope

/-- At the place stands an occurrence of this number, and its name is declared so far out. -/
def Place.Records (p : Place) (entry : Nat × Nat) : Prop :=
  ∃ mention, p.node.mentions? = some mention ∧ mention.id = entry.1 ∧
    p.DeclaredAt entry.2 mention.name

namespace Scope

open Place

/-- The entries are those of the occurrences at some places. -/
def RecordedAmong (places : Place → Prop) (found : List (Nat × Nat)) : Prop :=
  ∀ entry, entry ∈ found ↔ ∃ q, places q ∧ q.Records entry

/-- The entries are those of the occurrences at a place and inside of it. -/
def Recorded (p : Place) (found : List (Nat × Nat)) : Prop :=
  RecordedAmong p.Within found

/-- The same for parts of a place that stand in a row, the first at the position. -/
def RecordedRow (p : Place) (position : Nat) (row : List Node) (found : List (Nat × Nat)) : Prop :=
  RecordedAmong
    (fun q => ∃ i node, row[i]? = some node ∧ (p.part (position + i) node).Within q) found

section Recorded

variable {p : Place} {position : Nat} {node : Node} {row : List Node}
  {found first rest : List (Nat × Nat)}

theorem recordedRow_nil : RecordedRow p position [] [] :=
  fun entry => by simp

theorem recordedRow_cons (hfirst : Recorded (p.part position node) first)
    (hrest : RecordedRow p (position + 1) row rest) :
    RecordedRow p position (node :: row) (first ++ rest) := by
  intro entry
  rw [List.mem_append, hfirst entry, hrest entry]
  constructor
  · rintro (⟨q, hwithin, hrecords⟩ | ⟨q, ⟨i, other, hother, hwithin⟩, hrecords⟩)
    · exact ⟨q, ⟨0, node, rfl, hwithin⟩, hrecords⟩
    · refine ⟨q, ⟨i + 1, other, hother, ?_⟩, hrecords⟩
      rwa [Nat.add_right_comm] at hwithin
  · rintro ⟨q, ⟨i, other, hother, hwithin⟩, hrecords⟩
    cases i with
    | zero =>
        obtain rfl : node = other := Option.some.inj hother
        exact .inl ⟨q, hwithin, hrecords⟩
    | succ i =>
        refine .inr ⟨q, ⟨i, other, hother, ?_⟩, hrecords⟩
        rwa [Nat.add_right_comm]

theorem recordedRow_single (h : Recorded (p.part position node) found) :
    RecordedRow p position [node] found := by
  rw [← List.append_nil found]
  exact recordedRow_cons h recordedRow_nil

/-- The entry of the occurrence at a place comes with those inside of it. -/
theorem Recorded.of_mention {scopes : Scopes} {name : String} {id : Nat}
    (hshows : Shows scopes p.scopes) (hmentions : p.node.mentions? = some ⟨name, id⟩)
    (hrow : RecordedRow p 0 p.node.parts found) :
    Recorded p (found ++ (Findings.local? scopes name id).locals) := by
  intro entry
  have hown : entry ∈ (Findings.local? scopes name id).locals ↔ p.Records entry := by
    have hentry : entry ∈ (Findings.local? scopes name id).locals ↔
        id = entry.1 ∧ scopes.distance? name = some entry.2 := by
      obtain ⟨id, distance⟩ := entry
      unfold Findings.local?
      split
      · rename_i heq
        simp [heq, eq_comm]
      · rename_i heq
        simp [heq, Findings.nothing]
    rw [hentry, hshows.distance?_eq_some_iff]
    constructor
    · rintro ⟨hid, hdeclared⟩
      exact ⟨_, hmentions, hid, hdeclared⟩
    · rintro ⟨other, hother, hid, hdeclared⟩
      obtain rfl := Option.some.inj (hmentions.symm.trans hother)
      exact ⟨hid, hdeclared⟩
  rw [List.mem_append, hrow entry, hown]
  constructor
  · rintro (⟨q, ⟨i, other, hother, hwithin⟩, hrecords⟩ | hrecords)
    · rw [Nat.zero_add] at hwithin
      exact ⟨q, hwithin.outer hother, hrecords⟩
    · exact ⟨p, .self, hrecords⟩
  · rintro ⟨q, hwithin, hrecords⟩
    rcases within_iff.mp hwithin with rfl | ⟨i, other, hother, hwithin⟩
    · exact .inr hrecords
    · exact .inl ⟨q, ⟨i, other, hother, by rwa [Nat.zero_add]⟩, hrecords⟩

/-- Where no occurrence stands there are only those inside. -/
theorem Recorded.of_parts (hmentions : p.node.mentions? = none)
    (hrow : RecordedRow p 0 p.node.parts found) : Recorded p found := by
  intro entry
  rw [hrow entry]
  constructor
  · rintro ⟨q, ⟨i, other, hother, hwithin⟩, hrecords⟩
    rw [Nat.zero_add] at hwithin
    exact ⟨q, hwithin.outer hother, hrecords⟩
  · rintro ⟨q, hwithin, hrecords⟩
    rcases within_iff.mp hwithin with rfl | ⟨i, other, hother, hwithin⟩
    · obtain ⟨mention, hmention, -⟩ := hrecords
      exact absurd (hmentions.symm.trans hmention) (by simp)
    · exact ⟨q, ⟨i, other, hother, by rwa [Nat.zero_add]⟩, hrecords⟩

/-- No occurrence stands at a parameter. -/
theorem recordedRow_params (row : List Token) (others : List Node)
    (h : RecordedRow p (position + row.length) others found) :
    RecordedRow p position (row.map .param ++ others) found := by
  induction row generalizing position with
  | nil => exact h
  | cons param row ih =>
      have hfirst : Recorded (p.part position (.param param)) [] :=
        .of_parts rfl recordedRow_nil
      refine recordedRow_cons hfirst (ih ?_)
      rwa [List.length_cons, ← Nat.add_assoc, Nat.add_right_comm] at h

end Recorded

/-! ### Along the walk -/

theorem Shows.inExpr {scopes : Scopes} {p : Place} {position : Nat} {node : Node}
    (h : Shows scopes p.scopes) {e : Expr} (hnode : p.node = .expr e) :
    Shows scopes (p.part position node).scopes :=
  h.part (by rw [hnode]; rfl) (by rw [hnode]; rfl)

mutual

theorem ofExpr_recorded {context : Context} {scopes : Scopes} {p : Place}
    (hshows : Shows scopes p.scopes) : ∀ {e : Expr}, p.node = .expr e →
    (ofExpr context scopes e).faults = [] → Recorded p (ofExpr context scopes e).locals
  | .literal _, hnode, _ => by
      refine .of_parts (by rw [hnode]; rfl) ?_
      rw [hnode]
      exact recordedRow_nil
  | .group inner, hnode, hfaults | .unary _ inner, hnode, hfaults
  | .get inner _, hnode, hfaults => by
      have hinner : Recorded (p.part 0 (.expr inner)) (ofExpr context scopes inner).locals :=
        ofExpr_recorded (hshows.inExpr hnode) rfl hfaults
      refine .of_parts (by rw [hnode]; rfl) ?_
      rw [hnode]
      exact recordedRow_single hinner
  | .binary _ left right, hnode, hfaults | .logical _ left right, hnode, hfaults
  | .set right _ left, hnode, hfaults => by
      obtain ⟨hfleft, hfright⟩ := append_faults_eq_nil.mp hfaults
      refine .of_parts (by rw [hnode]; rfl) ?_
      rw [hnode]
      exact recordedRow_cons (ofExpr_recorded (hshows.inExpr hnode) rfl hfleft)
        (recordedRow_single (ofExpr_recorded (hshows.inExpr hnode) rfl hfright))
  | .conditional condition onTrue onFalse, hnode, hfaults => by
      obtain ⟨hfboth, hfFalse⟩ := append_faults_eq_nil.mp hfaults
      obtain ⟨hfcondition, hfTrue⟩ := append_faults_eq_nil.mp hfboth
      refine .of_parts (by rw [hnode]; rfl) ?_
      rw [hnode, ofExpr, Findings.append_locals, Findings.append_locals, List.append_assoc]
      exact recordedRow_cons (ofExpr_recorded (hshows.inExpr hnode) rfl hfcondition)
        (recordedRow_cons (ofExpr_recorded (hshows.inExpr hnode) rfl hfTrue)
          (recordedRow_single (ofExpr_recorded (hshows.inExpr hnode) rfl hfFalse)))
  | .use occurrence, hnode, _ => by
      have hrow : RecordedRow p 0 p.node.parts [] := by
        rw [hnode]
        exact recordedRow_nil
      rw [ofExpr, Findings.append_locals, faultIf_locals]
      exact .of_mention hshows (by rw [hnode]; rfl) hrow
  | .assign target value, hnode, hfaults => by
      obtain ⟨hfvalue, -⟩ := append_faults_eq_nil.mp hfaults
      refine .of_mention hshows (by rw [hnode]; rfl) ?_
      rw [hnode]
      exact recordedRow_single (ofExpr_recorded (hshows.inExpr hnode) rfl hfvalue)
  | .call callee _ arguments, hnode, hfaults => by
      obtain ⟨hfcallee, hfrow⟩ := append_faults_eq_nil.mp hfaults
      have hparts : ∀ position e, Shows scopes (p.part position (.expr e)).scopes :=
        fun _ _ => hshows.inExpr hnode
      refine .of_parts (by rw [hnode]; rfl) ?_
      rw [hnode]
      exact recordedRow_cons (ofExpr_recorded (hshows.inExpr hnode) rfl hfcallee)
        (ofExprs_recorded hparts arguments 1 hfrow)
  | .this receiver, hnode, hfaults => by
      have hrow : RecordedRow p 0 p.node.parts [] := by
        rw [hnode]
        exact recordedRow_nil
      rw [ofExpr] at hfaults ⊢
      split at hfaults
      · exact absurd hfaults (by simp [Findings.faultIf])
      · rename_i hinside
        rw [if_neg hinside]
        exact .of_mention hshows (by rw [hnode]; rfl) hrow
  | .super keyword _, hnode, _ => by
      have hrow : RecordedRow p 0 p.node.parts [] := by
        rw [hnode]
        exact recordedRow_nil
      rw [ofExpr, Findings.append_locals, Findings.append_locals, faultIf_locals, faultIf_locals]
      exact .of_mention hshows (by rw [hnode]; rfl) hrow

theorem ofExprs_recorded {context : Context} {scopes : Scopes} {p : Place}
    (hshows : ∀ position e, Shows scopes (p.part position (.expr e)).scopes) :
    ∀ (row : List Expr) (position : Nat), (ofExprs context scopes row).faults = [] →
    RecordedRow p position (row.map .expr) (ofExprs context scopes row).locals
  | [], _, _ => recordedRow_nil
  | _ :: rest, position, hfaults => by
      obtain ⟨hffirst, hfrest⟩ := append_faults_eq_nil.mp hfaults
      exact recordedRow_cons (ofExpr_recorded (hshows position _) rfl hffirst)
        (ofExprs_recorded hshows rest (position + 1) hfrest)

end

theorem Shows.inStmt {scopes : Scopes} {p : Place} {position : Nat} {node : Node} {s : Stmt}
    (h : Shows (scopes.declare s) p.scopes) (hnode : p.node = .stmt s)
    (hplain : (Node.stmt s).isScope = false ∧ (Node.stmt s).isClass = false) :
    Shows (scopes.declare s) (p.part position node).scopes :=
  h.part (by rw [hnode, hplain.1]) (by rw [hnode, hplain.2])

/-- What is nested in a statement without a block is no declaration. -/
theorem Shows.nested {scopes : Scopes} {p : Place} {position : Nat} {s inner : Stmt}
    (h : Shows (scopes.declare s) p.scopes) (hnode : p.node = .stmt s)
    (hplain : (Node.stmt s).isScope = false ∧ (Node.stmt s).isClass = false)
    (hsame : scopes.declare s = scopes) (hnested : inner.isDeclaration = false) :
    Shows (scopes.declare inner) (p.part position (.stmt inner)).scopes := by
  rw [scopes.declare_of_nested hnested, ← hsame]
  exact h.inStmt hnode hplain

mutual

theorem ofStmt_recorded {v : Vocabulary} {context : Context} {scopes : Scopes} {p : Place} :
    ∀ {s : Stmt}, s.Worded v → p.node = .stmt s → Shows (scopes.declare s) p.scopes →
    (ofStmt context scopes s).2.faults = [] → Recorded p (ofStmt context scopes s).2.locals
  | .expression value, _, hnode, hshows, hfaults | .print _ value, _, hnode, hshows, hfaults => by
      refine .of_parts (by rw [hnode]; rfl) ?_
      rw [hnode]
      exact recordedRow_single
        (ofExpr_recorded (hshows.inStmt hnode ⟨rfl, rfl⟩) rfl hfaults)
  | .var name none, _, hnode, _, _ => by
      refine .of_parts (by rw [hnode]; rfl) ?_
      rw [hnode, ofStmt, redeclared_locals]
      exact recordedRow_nil
  | .var name (some value), _, hnode, hshows, hfaults => by
      obtain ⟨-, hfvalue⟩ := append_faults_eq_nil.mp hfaults
      refine .of_parts (by rw [hnode]; rfl) ?_
      rw [hnode, ofStmt, Findings.append_locals, redeclared_locals, List.nil_append]
      exact recordedRow_single
        (ofExpr_recorded ((hshows.inStmt hnode ⟨rfl, rfl⟩).remark false) rfl hfvalue)
  | .block body, h, hnode, hshows, hfaults => by
      have hscope : p.node.isScope = true := by rw [hnode]; rfl
      cases h with
      | block hbody =>
          refine .of_parts (by rw [hnode]; rfl) ?_
          have hrow := ofStmts_recorded (.inl hscope) (by rw [hnode]; rfl) [] hbody
            (by rw [hnode]; rfl) (hshows.push hscope) hfaults
          rwa [hnode]
  | .ifElse condition onTrue none, h, hnode, hshows, hfaults => by
      obtain ⟨hfcondition, hfTrue⟩ := append_faults_eq_nil.mp hfaults
      cases h with
      | ifElse _ hTrue hnested _ _ =>
          refine .of_parts (by rw [hnode]; rfl) ?_
          rw [hnode]
          exact recordedRow_cons
            (ofExpr_recorded (hshows.inStmt hnode ⟨rfl, rfl⟩) rfl hfcondition)
            (recordedRow_single (ofStmt_recorded hTrue rfl
              (hshows.nested hnode ⟨rfl, rfl⟩ rfl hnested) hfTrue))
  | .ifElse condition onTrue (some onFalse), h, hnode, hshows, hfaults => by
      obtain ⟨hfboth, hfFalse⟩ := append_faults_eq_nil.mp hfaults
      obtain ⟨hfcondition, hfTrue⟩ := append_faults_eq_nil.mp hfboth
      cases h with
      | ifElse _ hTrue hnested hFalse hnested' =>
          have hscopes : (ofStmt context scopes onTrue).1 = scopes :=
            (ofStmt_scopes context scopes hTrue).trans (scopes.declare_of_nested hnested)
          have hlocals : (ofStmt context scopes (.ifElse condition onTrue (some onFalse))).2.locals
              = (ofExpr context scopes condition).locals ++
                ((ofStmt context scopes onTrue).2.locals ++
                  (ofStmt context (ofStmt context scopes onTrue).1 onFalse).2.locals) :=
            List.append_assoc _ _ _
          rw [hscopes] at hfFalse hlocals
          refine .of_parts (by rw [hnode]; rfl) ?_
          rw [hnode, hlocals]
          exact recordedRow_cons
            (ofExpr_recorded (hshows.inStmt hnode ⟨rfl, rfl⟩) rfl hfcondition)
            (recordedRow_cons (ofStmt_recorded hTrue rfl
                (hshows.nested hnode ⟨rfl, rfl⟩ rfl hnested) hfTrue)
              (recordedRow_single (ofStmt_recorded (hFalse onFalse rfl) rfl
                (hshows.nested hnode ⟨rfl, rfl⟩ rfl (hnested' onFalse rfl)) hfFalse)))
  | .whileLoop condition body, h, hnode, hshows, hfaults => by
      obtain ⟨hfcondition, hfbody⟩ := append_faults_eq_nil.mp hfaults
      cases h with
      | whileLoop _ hbody hnested =>
          refine .of_parts (by rw [hnode]; rfl) ?_
          rw [hnode]
          exact recordedRow_cons
            (ofExpr_recorded (hshows.inStmt hnode ⟨rfl, rfl⟩) rfl hfcondition)
            (recordedRow_single (ofStmt_recorded hbody rfl
              (hshows.nested hnode ⟨rfl, rfl⟩ rfl hnested) hfbody))
  | .breakLoop keyword, _, hnode, _, _ => by
      refine .of_parts (by rw [hnode]; rfl) ?_
      rw [hnode, ofStmt, faultIf_locals]
      exact recordedRow_nil
  | .function declaration, h, hnode, hshows, hfaults => by
      obtain ⟨-, hfinside⟩ := append_faults_eq_nil.mp hfaults
      cases h with
      | function h =>
          refine .of_parts (by rw [hnode]; rfl) ?_
          rw [hnode, ofStmt, Findings.append_locals, redeclared_locals, List.nil_append]
          exact recordedRow_single (ofFunction_recorded h (.inl rfl)
            (hshows.inStmt hnode ⟨rfl, rfl⟩) hfinside)
  | .returnWith keyword none, _, hnode, _, _ => by
      refine .of_parts (by rw [hnode]; rfl) ?_
      rw [hnode, ofStmt, faultIf_locals]
      exact recordedRow_nil
  | .returnWith keyword (some value), _, hnode, hshows, hfaults => by
      obtain ⟨-, hfvalue⟩ := append_faults_eq_nil.mp hfaults
      refine .of_parts (by rw [hnode]; rfl) ?_
      rw [hnode, ofStmt, Findings.append_locals, Findings.append_locals, faultIf_locals,
        faultIf_locals]
      exact recordedRow_single (ofExpr_recorded (hshows.inStmt hnode ⟨rfl, rfl⟩) rfl hfvalue)
  | .classDecl name superclass methods, h, hnode, hshows, hfaults => by
      obtain ⟨hfabove, hfmethods⟩ := append_faults_eq_nil.mp hfaults
      obtain ⟨-, hfabove⟩ := append_faults_eq_nil.mp hfabove
      have hinside : ∀ position f, superclass.toList.length ≤ position →
          Shows (classScopes (scopes.mark name.lexeme true) superclass)
            (p.part position (.method f)).scopes :=
        fun position f hposition => hshows.methods hnode hposition
      cases h with
      | classDecl _ _ hmethods =>
          have hrow := ofMethods_recorded hinside _ (Nat.le_refl _) hmethods hfmethods
          refine .of_parts (by rw [hnode]; rfl) ?_
          rw [hnode, ofStmt, Findings.append_locals, Findings.append_locals, redeclared_locals,
            List.nil_append]
          cases superclass with
          | none => exact hrow
          | some occurrence =>
              have habove : Shows (scopes.mark name.lexeme true)
                  (p.part 0 (.expr (.use occurrence))).scopes := by
                rw [scopes_part, hnode]
                exact hshows
              rw [ofSuperclass, Findings.append_locals, faultIf_locals, List.nil_append]
              obtain ⟨-, hfuse⟩ := append_faults_eq_nil.mp hfabove
              exact recordedRow_cons (ofExpr_recorded habove rfl hfuse) hrow

theorem ofStmts_recorded {v : Vocabulary} {context : Context} {p : Place}
    (hplace : p.node.isScope = true ∨ p.scopes = []) (hclass : p.node.isClass = false) :
    ∀ {body : List Stmt} (done : List Node) {scopes : Scopes}, (∀ s ∈ body, s.Worded v) →
    p.node.parts = done ++ body.map .stmt → Shows scopes (p.behind done) →
    (ofStmts context scopes body).faults = [] →
    RecordedRow p done.length (body.map .stmt) (ofStmts context scopes body).locals
  | [], _, _, _, _, _, _ => recordedRow_nil
  | s :: rest, done, scopes, h, hparts, hshows, hfaults => by
      rw [List.forall_mem_cons] at h
      obtain ⟨hffirst, hfrest⟩ := append_faults_eq_nil.mp hfaults
      have hbehind := hshows.declare hplace s
      have hfirst := ofStmt_recorded h.1 rfl
        ((scopes_part_of_parts hclass hparts).symm ▸ hbehind) hffirst
      rw [ofStmt_scopes context scopes h.1] at hfrest
      have hrest := ofStmts_recorded hplace hclass (done ++ [.stmt s]) h.2 (by simpa using hparts)
        hbehind hfrest
      rw [ofStmts, Findings.append_locals, ofStmt_scopes context scopes h.1]
      exact recordedRow_cons hfirst (by simpa using hrest)

theorem ofFunction_recorded {v : Vocabulary} {context : Context} {scopes : Scopes} {p : Place} :
    ∀ {f : FunctionDecl}, f.Worded v → p.node = .function f ∨ p.node = .method f →
    Shows scopes p.scopes → (ofFunction context scopes f).faults = [] →
    Recorded p (ofFunction context scopes f).locals
  | ⟨name, params, body⟩, h, hnode, hshows, hfaults => by
      obtain ⟨hparts, hscope, hclass, hnone⟩ : p.node.parts = params.map .param ++ body.map .stmt
          ∧ p.node.isScope = true ∧ p.node.isClass = false ∧ p.node.mentions? = none := by
        rcases hnode with hnode | hnode <;> rw [hnode] <;> exact ⟨rfl, rfl, rfl, rfl⟩
      obtain ⟨-, hfbody⟩ := append_faults_eq_nil.mp hfaults
      rw [ofParams_scopes] at hfbody
      cases h with
      | mk _ _ hbody =>
          have hrow := ofStmts_recorded (.inl hscope) hclass (params.map .param) hbody hparts
            (hshows.params hscope params) hfbody
          refine .of_parts hnone ?_
          rw [hparts, ofFunction, Findings.append_locals, ofParams_locals, List.nil_append,
            ofParams_scopes]
          refine recordedRow_params params _ ?_
          rwa [List.length_map, ← Nat.zero_add params.length] at hrow

theorem ofMethods_recorded {v : Vocabulary} {context : Context} {scopes : Scopes} {p : Place}
    {lowest : Nat}
    (hshows : ∀ position f, lowest ≤ position → Shows scopes (p.part position (.method f)).scopes) :
    ∀ {methods : List FunctionDecl} (position : Nat), lowest ≤ position →
    (∀ f ∈ methods, f.Worded v) → (ofMethods context scopes methods).faults = [] →
    RecordedRow p position (methods.map .method) (ofMethods context scopes methods).locals
  | [], _, _, _, _ => recordedRow_nil
  | method :: rest, position, hle, h, hfaults => by
      rw [List.forall_mem_cons] at h
      obtain ⟨hffirst, hfrest⟩ := append_faults_eq_nil.mp hfaults
      exact recordedRow_cons
        (ofFunction_recorded h.1 (.inr rfl) (hshows position method hle) hffirst)
        (ofMethods_recorded hshows (position + 1) (Nat.le_succ_of_le hle) h.2 hfrest)

end

/-! ### Programs -/

/-- The analysis of a program that it accepts lists the occurrences of local names. -/
theorem analyse_recorded {v : Vocabulary} {program : List Stmt} (h : ∀ s ∈ program, s.Worded v)
    (hfaults : (analyse program).faults = []) :
    Recorded (.whole program) (analyse program).locals :=
  .of_parts rfl (ofStmts_recorded (.inr rfl) rfl [] h rfl .nil hfaults)

theorem Locals.getElem?_extend_empty {found : List (Nat × Nat)} {id distance : Nat}
    (hnodup : (found.map Prod.fst).Nodup) :
    (extend ∅ found)[id]? = some distance ↔ (id, distance) ∈ found := by
  constructor
  · intro h
    by_cases hmem : id ∈ found.map Prod.fst
    · obtain ⟨entry, hentry, rfl⟩ := List.mem_map.mp hmem
      rw [getElem?_extend_of_mem hnodup hentry, Option.some_inj] at h
      rwa [← h]
    · rw [getElem?_extend_of_not_mem hmem] at h
      exact absurd h (by simp)
  · intro h
    exact getElem?_extend_of_mem hnodup h ∅

/-- **Distances are exact.**  Take what was read of any source, and let the analysis accept
it.  Then the table of distances has the number of an occurrence just if some scope around
the place of the occurrence has declared its name, and the distance is the number of scopes
between the place and the nearest such scope.  No other number is in the table. -/
theorem distances_exact (tokens : List Token) (endLine lastId : Nat)
    (h : (analyse (Grammar.parse tokens endLine lastId).program).faults = []) :
    let program := (Grammar.parse tokens endLine lastId).program
    let table := Locals.extend ∅ (analyse program).locals
    (∀ (p : Place) (mention : Mention), p.IsIn program → p.node.mentions? = some mention →
        (mention.id ∈ table ↔ ∃ names ∈ p.scopes, mention.name ∈ names) ∧
        ∀ distance, table[mention.id]? = some distance ↔ p.DeclaredAt distance mention.name) ∧
      ∀ id ∈ table, ∃ (p : Place) (mention : Mention), p.IsIn program ∧
        p.node.mentions? = some mention ∧ mention.id = id := by
  intro program table
  have hworded : ∀ s ∈ program, s.Worded .any :=
    (Grammar.parse_comesTo (Grammar.Derives.allows_any tokens) endLine lastId).2
  have hnodup : (Stmt.idsAll program).Nodup :=
    (Grammar.parse_numbered tokens endLine lastId).nodup
  have hrecorded := analyse_recorded hworded h
  have hentry : ∀ id distance, table[id]? = some distance ↔
      (id, distance) ∈ (analyse program).locals :=
    fun _ _ => Locals.getElem?_extend_empty ((ofStmts_listed .topLevel [] program).nodup hnodup)
  have hdistance : ∀ (p : Place) (mention : Mention), p.IsIn program →
      p.node.mentions? = some mention → ∀ distance,
        table[mention.id]? = some distance ↔ p.DeclaredAt distance mention.name := by
    intro p mention hp hmentions distance
    rw [hentry, hrecorded]
    constructor
    · rintro ⟨q, hq, other, hother, hid, hdeclared⟩
      obtain rfl := hp.eq_of_id hq hnodup hmentions hother hid.symm
      obtain rfl := Option.some.inj (hmentions.symm.trans hother)
      exact hdeclared
    · intro hdeclared
      exact ⟨p, hp, mention, hmentions, rfl, hdeclared⟩
  refine ⟨fun p mention hp hmentions => ⟨?_, hdistance p mention hp hmentions⟩, ?_⟩
  · rw [← exists_firstIn_iff, Std.TreeMap.mem_iff_isSome_getElem?, Option.isSome_iff_exists]
    exact exists_congr (hdistance p mention hp hmentions)
  · intro id hid
    rw [Std.TreeMap.mem_iff_isSome_getElem?, Option.isSome_iff_exists] at hid
    obtain ⟨distance, hdistance⟩ := hid
    obtain ⟨q, hq, mention, hmentions, hid, -⟩ :=
      (hrecorded _).mp ((hentry id distance).mp hdistance)
    exact ⟨q, mention, hq, hmentions, hid⟩

/-- From a block in a block, a variable of the outer one is one scope away. -/
theorem distance_from_inner_block : ∃ program : List Stmt,
    (Grammar.parse (Lexed.ofSource "\x7b var a; \x7b a; \x7d \x7d").tokens 1 0).program = program ∧
      (analyse program).faults = [] ∧
      (Locals.extend ∅ (analyse program).locals)[1]? = some 1 := by
  let name : Token := ⟨.identifier, "a", 1⟩
  let read : Stmt := .expression (.use ⟨name, 1⟩)
  let inner : Stmt := .block [read]
  let outer : Stmt := .block [.var name none, inner]
  have hprogram : (Grammar.parse (Lexed.ofSource "\x7b var a; \x7b a; \x7d \x7d").tokens 1 0).program
      = [outer] := by
    cbv
  have hfaults : (analyse [outer]).faults = [] := by decide
  have hexact := distances_exact (Lexed.ofSource "\x7b var a; \x7b a; \x7d \x7d").tokens 1 0
    (by rw [hprogram]; exact hfaults)
  rw [hprogram] at hexact
  have hplace : Place.IsIn [outer] (((((whole [outer]).part 0 (.stmt outer)).part 1
      (.stmt inner)).part 0 (.stmt read)).part 0 (.expr (.use ⟨name, 1⟩))) :=
    .inside (.inside (.inside (.inside .self rfl) rfl) rfl) rfl
  have hdeclared : FirstIn [[], ["a"]] 1 "a" :=
    (firstIn_of_not_mem (by simp)).mpr ⟨0, rfl, (firstIn_of_mem (by simp)).mpr rfl⟩
  exact ⟨[outer], hprogram, hfaults, ((hexact.1 _ _ hplace rfl).2 1).mpr hdeclared⟩

end Scope

end Lox
