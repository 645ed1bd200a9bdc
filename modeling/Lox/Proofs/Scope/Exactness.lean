/-
The analysis reports the offences, each once.

Walking through a program, the analysis carries along what it needs to know of the
surroundings: the open scopes with what they have declared so far, and the context.  At
every place that is what the rules of scoping read off the place itself (`Fits`, `Reads`
and `Tallies`), and so what the analysis reports at the place and inside of it are the
offences that there are (`Reported`).
-/
import Lox.Proofs.Grammar.Exactness
import Lox.Proofs.Grammar.Words
import Lox.Proofs.Scope.Acceptance
import Lox.Proofs.Scope.Reports

namespace Lox.Scope

open Place

variable {p : Place} {position : Nat} {node : Node}

/-! ### The context of a place -/

/-- What the context says of the innermost function around a place. -/
def kindOfFunction : Option Node → FunctionKind
  | some (.function _) => .function
  | some (.method declaration) => .ofMethod declaration.name.lexeme
  | _ => .none

/-- What the context says of the innermost class around a place. -/
def kindOfClass : Option Node → ClassKind
  | some (.stmt (.classDecl _ none _)) => .plain
  | some (.stmt (.classDecl _ (some _) _)) => .derived
  | _ => .none

/-- The context says what is around a place. -/
structure Fits (context : Context) (p : Place) : Prop where
  function : context.function = kindOfFunction p.function?
  classKind : context.classKind = kindOfClass p.class?
  inLoop : context.inLoop = p.inLoop

namespace Fits

variable {context : Context}

/-- Most parts do not change the context. -/
theorem part (h : Fits context p) {outer : Node} (hnode : p.node = outer)
    (hfunction : outer.isFunction = false) (hclass : outer.isClass = false)
    (hloop : outer.isLoop = false) : Fits context (p.part position node) := by
  subst hnode
  obtain ⟨hfun, hcls, hlp⟩ := h
  refine ⟨?_, ?_, ?_⟩
  · rw [hfun, function?, function?, around_part, List.find?_cons_of_neg (by simp [hfunction])]
  · rw [hcls, class?, class?, around_part, List.find?_cons_of_neg (by simp [hclass])]
  · rw [hlp, Place.inLoop, Place.inLoop, around_part, List.takeWhile_cons_of_pos (by simp [hfunction]),
      List.any_cons, hloop, Bool.false_or]

/-- In a loop. -/
theorem loop (h : Fits context p) {condition : Expr} {body : Stmt}
    (hnode : p.node = .stmt (.whileLoop condition body)) :
    Fits { context with inLoop := true } (p.part position node) := by
  obtain ⟨hfun, hcls, -⟩ := h
  refine ⟨?_, ?_, ?_⟩
  · rw [function?, around_part, hnode]
    exact hfun
  · rw [class?, around_part, hnode]
    exact hcls
  · rw [Place.inLoop, around_part, hnode]
    rfl

/-- In a function, which is not in the loops around it. -/
theorem inFunction (h : Fits context p) {declaration : FunctionDecl}
    (hnode : p.node = .function declaration) :
    Fits (context.inFunction .function) (p.part position node) := by
  obtain ⟨-, hcls, -⟩ := h
  refine ⟨?_, ?_, ?_⟩
  · rw [function?, around_part, hnode]
    rfl
  · rw [class?, around_part, hnode]
    exact hcls
  · rw [Place.inLoop, around_part, hnode]
    rfl

/-- In a method. -/
theorem inMethod (h : Fits context p) {declaration : FunctionDecl}
    (hnode : p.node = .method declaration) :
    Fits (context.inFunction (.ofMethod declaration.name.lexeme)) (p.part position node) := by
  obtain ⟨-, hcls, -⟩ := h
  refine ⟨?_, ?_, ?_⟩
  · rw [function?, around_part, hnode]
    rfl
  · rw [class?, around_part, hnode]
    exact hcls
  · rw [Place.inLoop, around_part, hnode]
    rfl

/-- In a class. -/
theorem inClass (h : Fits context p) {name : Token} {superclass : Option Occurrence}
    {methods : List FunctionDecl} (hnode : p.node = .stmt (.classDecl name superclass methods)) :
    Fits { context with classKind := if superclass.isSome then .derived else .plain }
      (p.part position node) := by
  obtain ⟨hfun, -, hlp⟩ := h
  refine ⟨?_, ?_, ?_⟩
  · rw [function?, around_part, hnode]
    exact hfun
  · rw [class?, around_part, hnode]
    cases superclass <;> rfl
  · rw [Place.inLoop, around_part, hnode]
    exact hlp

end Fits

/-! ### Expressions -/

/-- The scopes say which variable is being initialized. -/
def Reads (scopes : Scopes) (p : Place) : Prop :=
  ∀ name, scopes.isInitializing name = true ↔ Initializes name p.around

theorem initializes_cons_iff {name : String} {around : List Node} (h : node.isStmt = false) :
    Initializes name (node :: around) ↔ Initializes name around := by
  constructor
  · rintro (⟨-, h⟩ | _)
    · exact h
    · exact absurd h (by simp [Node.isStmt])
  · exact .inner h

theorem Reads.part {scopes : Scopes} (h : Reads scopes p) (hstmt : p.node.isStmt = false) :
    Reads scopes (p.part position node) :=
  fun name => (h name).trans (initializes_cons_iff hstmt).symm

theorem initializes_stmt_iff {name : String} {s : Stmt} {around : List Node} :
    Initializes name (.stmt s :: around) ↔ ∃ token initializer scope outer,
      s = .var token initializer ∧ around = scope :: outer ∧ token.lexeme = name ∧
        scope.isScope = true := by
  constructor
  · rintro (⟨hexpr, -⟩ | ⟨hname, hscope⟩)
    · exact absurd hexpr (by simp [Node.isStmt])
    · exact ⟨_, _, _, _, rfl, rfl, hname, hscope⟩
  · rintro ⟨token, initializer, scope, outer, rfl, rfl, hname, hscope⟩
    exact .var hname hscope

/-- In statements other than the declaration of a variable, none is being initialized. -/
theorem Scopes.Settled.reads {scopes : Scopes} (h : scopes.Settled) {s : Stmt}
    (hnode : p.node = .stmt s) (hs : ∀ name initializer, s ≠ .var name initializer) :
    Reads scopes (p.part position node) := by
  intro name
  rw [h name, around_part, hnode, initializes_stmt_iff]
  refine ⟨fun h => absurd h (by simp), ?_⟩
  rintro ⟨token, initializer, -, -, heq, -⟩
  exact absurd heq (hs token initializer)

/-- What the analysis carries along to an expression is right about its place; loops do
not matter to expressions. -/
structure Situated (context : Context) (scopes : Scopes) (p : Place) : Prop where
  classKind : context.classKind = kindOfClass p.class?
  reads : Reads scopes p

theorem class?_part (h : p.node.isClass = false) : (p.part position node).class? = p.class? := by
  rw [class?, class?, around_part, List.find?_cons_of_neg (by simp [h])]

theorem Situated.part {context : Context} {scopes : Scopes} (h : Situated context scopes p)
    {e : Expr} (hnode : p.node = .expr e) : Situated context scopes (p.part position node) :=
  ⟨h.classKind.trans (by rw [class?_part (by rw [hnode]; rfl)]),
    h.reads.part (by rw [hnode]; rfl)⟩

/-- An expression in a statement. -/
theorem Fits.situated {context : Context} {scopes : Scopes} (h : Fits context p) {s : Stmt}
    (hnode : p.node = .stmt s) (hclass : (Node.stmt s).isClass = false)
    (hreads : Reads scopes (p.part position node)) :
    Situated context scopes (p.part position node) :=
  ⟨h.classKind.trans (by rw [class?_part (by rw [hnode, hclass])]), hreads⟩

/-- An expression in a statement that is no declaration. -/
theorem Fits.settled {context : Context} {scopes : Scopes} (h : Fits context p)
    (hsettled : scopes.Settled) {s : Stmt} (hnode : p.node = .stmt s)
    (hs : s.isDeclaration = false) : Situated context scopes (p.part position node) := by
  refine h.situated hnode ?_ (hsettled.reads hnode ?_)
  · cases s with
    | classDecl _ _ _ => cases hs
    | _ => rfl
  · rintro name initializer rfl
    cases hs

/-- Most expressions break no rule. -/
theorem not_offence_of_expr {e : Expr} (hnode : p.node = .expr e)
    (huse : ∀ occurrence, e ≠ .use occurrence) (hthis : ∀ receiver, e ≠ .this receiver)
    (hsuper : ∀ keyword method, e ≠ .super keyword method) (token : Token) (cause : Fault.Cause) :
    ¬Offence p token cause := by
  intro h
  cases h with
  | returnOutsideFunction hnode' | returnValueFromInitializer hnode' | breakOutsideLoop hnode'
    | inheritsFromItself hnode' => rw [hnode] at hnode'; cases hnode'
  | thisOutsideClass hnode' => exact hthis _ (Node.expr.inj (hnode.symm.trans hnode'))
  | superOutsideClass hnode' => exact hsuper _ _ (Node.expr.inj (hnode.symm.trans hnode'))
  | superWithoutSuperclass hnode' => exact hsuper _ _ (Node.expr.inj (hnode.symm.trans hnode'))
  | alreadyDeclared hnode' => rw [hnode] at hnode'; simp [Node.declared?] at hnode'
  | readInOwnInitializer hnode' => exact huse _ (Node.expr.inj (hnode.symm.trans hnode'))

/-- A variable that is read breaks one rule only. -/
theorem offence_use_iff {occurrence : Occurrence} (hnode : p.node = .expr (.use occurrence))
    {token : Token} {cause : Fault.Cause} : Offence p token cause ↔
      Initializes occurrence.name.lexeme p.around ∧ token = occurrence.name ∧
        cause = .readInOwnInitializer := by
  constructor
  · intro h
    cases h <;> simp_all [Node.declared?]
  · rintro ⟨hinitializes, rfl, rfl⟩
    exact .readInOwnInitializer hnode hinitializes

theorem offence_this_iff {receiver : Occurrence} (hnode : p.node = .expr (.this receiver))
    {token : Token} {cause : Fault.Cause} : Offence p token cause ↔
      p.class? = none ∧ token = receiver.name ∧ cause = .thisOutsideClass := by
  constructor
  · intro h
    cases h <;> simp_all [Node.declared?]
  · rintro ⟨hclass, rfl, rfl⟩
    exact .thisOutsideClass hnode hclass

theorem offence_super_iff {keyword : Occurrence} {method : Token}
    (hnode : p.node = .expr (.super keyword method)) {token : Token} {cause : Fault.Cause} :
    Offence p token cause ↔ token = keyword.name ∧
      (p.class? = none ∧ cause = .superOutsideClass ∨
        (∃ name methods, p.class? = some (.stmt (.classDecl name none methods))) ∧
          cause = .superWithoutSuperclass) := by
  constructor
  · intro h
    cases h <;> simp_all [Node.declared?]
  · rintro ⟨rfl, ⟨hclass, rfl⟩ | ⟨⟨name, methods, hclass⟩, rfl⟩⟩
    · exact .superOutsideClass hnode hclass
    · exact .superWithoutSuperclass hnode hclass

/-- The innermost class is the declaration of a class. -/
theorem eq_classDecl_of_class? {c : Node} (h : p.class? = some c) :
    ∃ name superclass methods, c = .stmt (.classDecl name superclass methods) := by
  have hclass := List.find?_some h
  cases c with
  | stmt s =>
      cases s with
      | classDecl name superclass methods => exact ⟨name, superclass, methods, rfl⟩
      | _ => cases hclass
  | _ => cases hclass

theorem kindOfClass_eq_none_iff : kindOfClass p.class? = .none ↔ p.class? = none := by
  constructor
  · intro h
    cases hclass : p.class? with
    | none => rfl
    | some c =>
        obtain ⟨name, superclass, methods, rfl⟩ := eq_classDecl_of_class? hclass
        rw [hclass] at h
        cases superclass <;> cases h
  · intro h
    rw [h]
    rfl

theorem kindOfClass_eq_plain_iff : kindOfClass p.class? = .plain ↔
    ∃ name methods, p.class? = some (.stmt (.classDecl name none methods)) := by
  constructor
  · intro h
    cases hclass : p.class? with
    | none =>
        rw [hclass] at h
        cases h
    | some c =>
        obtain ⟨name, superclass, methods, rfl⟩ := eq_classDecl_of_class? hclass
        rw [hclass] at h
        cases superclass with
        | none => exact ⟨name, methods, rfl⟩
        | some _ => cases h
  · rintro ⟨name, methods, h⟩
    rw [h]
    rfl

/-- A variable that is read. -/
theorem use_reported {context : Context} {scopes : Scopes} (hreads : Reads scopes p)
    {occurrence : Occurrence} (hnode : p.node = .expr (.use occurrence)) :
    Reported p (ofExpr context scopes (.use occurrence)).faults := by
  let check : Check := ⟨scopes.isInitializing occurrence.name.lexeme, occurrence.name,
    .readInOwnInitializer⟩
  have hchecked : Checked p [check] := by
    refine ⟨by simp, fun token cause => ?_⟩
    rw [offence_use_iff hnode, ← hreads]
    simp [check]
  simpa [check, ofExpr, Check.faults_cons, local?_faults, Check.faults_nil]
    using hchecked.alone hnode rfl

theorem this_reported {context : Context} {scopes : Scopes}
    (hclass : context.classKind = kindOfClass p.class?)
    {receiver : Occurrence} (hnode : p.node = .expr (.this receiver)) :
    Reported p (ofExpr context scopes (.this receiver)).faults := by
  let check : Check := ⟨context.classKind = .none, receiver.name, .thisOutsideClass⟩
  have hchecked : Checked p [check] := by
    refine ⟨by simp, fun token cause => ?_⟩
    rw [offence_this_iff hnode, ← kindOfClass_eq_none_iff, ← hclass]
    simp [check]
  have hfaults : (ofExpr context scopes (.this receiver)).faults = Check.faults [check] := by
    rw [ofExpr, Check.faults_cons]
    by_cases hnone : context.classKind = .none <;>
      simp [check, hnone, Findings.faultIf, Findings.nothing, local?_faults, Check.faults_nil]
  rw [hfaults]
  exact hchecked.alone hnode rfl

theorem super_reported {context : Context} {scopes : Scopes}
    (hclass : context.classKind = kindOfClass p.class?)
    {keyword : Occurrence} {method : Token} (hnode : p.node = .expr (.super keyword method)) :
    Reported p (ofExpr context scopes (.super keyword method)).faults := by
  let outside : Check := ⟨context.classKind = .none, keyword.name, .superOutsideClass⟩
  let without : Check := ⟨context.classKind = .plain, keyword.name, .superWithoutSuperclass⟩
  have hchecked : Checked p [outside, without] := by
    refine ⟨by simp [outside, without], fun token cause => ?_⟩
    rw [offence_super_iff hnode, ← kindOfClass_eq_none_iff, ← kindOfClass_eq_plain_iff,
      ← hclass]
    simp [outside, without]
    tauto
  simpa [outside, without, ofExpr, Check.faults_cons, local?_faults, Check.faults_nil]
    using hchecked.alone hnode rfl

mutual

theorem ofExpr_reported {context : Context} {scopes : Scopes} {p : Place}
    (h : Situated context scopes p) : ∀ {e : Expr}, p.node = .expr e →
    Reported p (ofExpr context scopes e).faults
  | .literal _, hnode => by
      exact .of_inside (not_offence_of_expr hnode (by simp) (by simp) (by simp)) hnode
        reportedRow_nil
  | .group inner, hnode => by
      refine .of_inside (not_offence_of_expr hnode (by simp) (by simp) (by simp)) hnode ?_
      rw [ofExpr]
      exact reportedRow_single (ofExpr_reported (h.part hnode) rfl)
  | .unary _ operand, hnode => by
      refine .of_inside (not_offence_of_expr hnode (by simp) (by simp) (by simp)) hnode ?_
      rw [ofExpr]
      exact reportedRow_single (ofExpr_reported (h.part hnode) rfl)
  | .binary _ left right, hnode | .logical _ left right, hnode => by
      refine .of_inside (not_offence_of_expr hnode (by simp) (by simp) (by simp)) hnode ?_
      rw [ofExpr, Findings.append_faults]
      exact reportedRow_cons (ofExpr_reported (h.part hnode) rfl)
        (reportedRow_single (ofExpr_reported (h.part hnode) rfl))
  | .conditional condition onTrue onFalse, hnode => by
      refine .of_inside (not_offence_of_expr hnode (by simp) (by simp) (by simp)) hnode ?_
      rw [ofExpr, Findings.append_faults, Findings.append_faults, List.append_assoc]
      exact reportedRow_cons (ofExpr_reported (h.part hnode) rfl)
        (reportedRow_cons (ofExpr_reported (h.part hnode) rfl)
          (reportedRow_single (ofExpr_reported (h.part hnode) rfl)))
  | .use _, hnode => use_reported h.reads hnode
  | .assign target value, hnode => by
      refine .of_inside (not_offence_of_expr hnode (by simp) (by simp) (by simp)) hnode ?_
      rw [ofExpr, Findings.append_faults, local?_faults, List.append_nil]
      exact reportedRow_single (ofExpr_reported (h.part hnode) rfl)
  | .call callee _ arguments, hnode => by
      refine .of_inside (not_offence_of_expr hnode (by simp) (by simp) (by simp)) hnode ?_
      have hparts : ∀ position e, Situated context scopes (p.part position (.expr e)) :=
        fun _ _ => h.part hnode
      have harguments := ofExprs_reported hparts arguments
      rw [ofExpr, Findings.append_faults]
      exact reportedRow_cons (ofExpr_reported (h.part hnode) rfl) (harguments 1)
  | .get object _, hnode => by
      refine .of_inside (not_offence_of_expr hnode (by simp) (by simp) (by simp)) hnode ?_
      rw [ofExpr]
      exact reportedRow_single (ofExpr_reported (h.part hnode) rfl)
  | .set object _ value, hnode => by
      refine .of_inside (not_offence_of_expr hnode (by simp) (by simp) (by simp)) hnode ?_
      rw [ofExpr, Findings.append_faults]
      exact reportedRow_cons (ofExpr_reported (h.part hnode) rfl)
        (reportedRow_single (ofExpr_reported (h.part hnode) rfl))
  | .this _, hnode => this_reported h.classKind hnode
  | .super _ _, hnode => super_reported h.classKind hnode

theorem ofExprs_reported {context : Context} {scopes : Scopes} {p : Place}
    (h : ∀ position e, Situated context scopes (p.part position (.expr e))) : ∀ (row : List Expr)
    (position : Nat), ReportedRow p position (row.map .expr) (ofExprs context scopes row).faults
  | [], _ => reportedRow_nil
  | _ :: rest, position =>
      reportedRow_cons (ofExpr_reported (h position _) rfl)
        (ofExprs_reported h rest (position + 1))

end

/-! ### Declarations -/

/-- The scopes say what the parts of a scope that are done with have declared in it. -/
structure Tallies (scopes : Scopes) (scope : Node) (done : List Node) : Prop where
  empty : scopes = [] ↔ scope.isScope = false
  declares : ∀ name, scopes.declaresInnermost name = true ↔
    scope.isScope = true ∧ ∃ token ∈ done.filterMap Node.declared?, token.lexeme = name

/-- The scopes say what is declared in front of a place in its scope. -/
structure Stands (scopes : Scopes) (p : Place) : Prop where
  empty : scopes = [] ↔ p.inScope = false
  declares : ∀ name, scopes.declaresInnermost name = true ↔ p.Declares name

namespace Tallies

variable {scopes : Scopes} {scope : Node} {done row : List Node}

/-- A scope that was just opened. -/
theorem push (scopes : Scopes) (hscope : scope.isScope = true) : Tallies ([] :: scopes) scope [] :=
  ⟨by simp [hscope], fun name => by simp [Scopes.declaresInnermost, Bindings.binds]⟩

/-- A part that declares a name. -/
theorem mark (h : Tallies scopes scope done) {name : Token} (hname : node.declared? = some name)
    (complete : Bool) : Tallies (scopes.mark name.lexeme complete) scope (done ++ [node]) := by
  refine ⟨by rw [Scopes.mark_eq_nil_iff, h.empty], fun other => ?_⟩
  cases scopes with
  | nil =>
      have hscope := h.empty.mp rfl
      simp [Scopes.mark, Scopes.declaresInnermost, hscope]
  | cons names outer =>
      have hscope : scope.isScope = true := by simpa using h.empty
      have hnames := h.declares other
      simp only [Scopes.declaresInnermost, hscope, true_and] at hnames
      simp [Scopes.mark, Scopes.declaresInnermost, Bindings.binds_insert, hscope, hnames, hname,
        or_comm, or_and_right, exists_or]

/-- A part that declares nothing. -/
theorem skip (h : Tallies scopes scope done) (hname : node.declared? = none) :
    Tallies scopes scope (done ++ [node]) :=
  ⟨h.empty, fun other => by simpa [hname] using h.declares other⟩

/-- A statement. -/
theorem declare (h : Tallies scopes scope done) (s : Stmt) :
    Tallies (scopes.declare s) scope (done ++ [.stmt s]) := by
  cases s with
  | var name initializer => exact h.mark rfl true
  | function declaration => exact h.mark rfl true
  | classDecl name superclass methods => exact h.mark rfl true
  | _ => exact h.skip rfl

/-- The next part. -/
theorem stands (h : Tallies scopes p.node done) (hparts : p.node.parts = done ++ row) :
    Stands scopes (p.part done.length node) := by
  refine ⟨h.empty, fun name => ?_⟩
  have hearlier : (p.part done.length node).earlier = done.filterMap Node.declared? := by
    simp [earlier, part, hparts]
  rw [h.declares, Place.Declares, hearlier]
  rfl

end Tallies

theorem inScope_iff : p.inScope = true ↔ ∃ scope outer, p.around = scope :: outer ∧
    scope.isScope = true := by
  obtain ⟨_ | ⟨⟨parent, position⟩, site⟩, node⟩ := p <;> simp [inScope, around]

/-- In the declaration of a variable it is that variable which is being initialized. -/
theorem Stands.reads {scopes : Scopes} (h : Stands scopes p) (hsettled : scopes.Settled)
    {name : Token} {initializer : Option Expr} (hnode : p.node = .stmt (.var name initializer)) :
    Reads (scopes.mark name.lexeme false) (p.part position node) := by
  intro other
  rw [around_part, hnode, initializes_stmt_iff]
  by_cases heq : name.lexeme = other
  · subst heq
    have hempty : scopes.isEmpty = false ↔ p.inScope = true := by
      rw [← Bool.not_eq_false, ← h.empty]
      cases scopes <;> simp
    rw [Scopes.isInitializing_mark_self, Bool.not_false, Bool.true_and, Bool.not_eq_true', hempty,
      inScope_iff]
    constructor
    · rintro ⟨scope, outer, haround, hscope⟩
      exact ⟨name, initializer, scope, outer, rfl, haround, rfl, hscope⟩
    · rintro ⟨-, -, scope, outer, -, haround, -, hscope⟩
      exact ⟨scope, outer, haround, hscope⟩
  · rw [Scopes.isInitializing_mark_of_ne heq, hsettled]
    refine ⟨fun h => absurd h (by simp), ?_⟩
    rintro ⟨token, initializer', -, -, hvar, -, hname, -⟩
    exact absurd ((Stmt.var.inj hvar).1 ▸ hname) heq

/-- Whether a declaration is a second one in its scope. -/
def redeclaration (scopes : Scopes) (name : Token) : Check :=
  ⟨scopes.declaresInnermost name.lexeme, name, .alreadyDeclared⟩

theorem redeclared_eq (scopes : Scopes) (name : Token) :
    (redeclared scopes name).faults = Check.faults [redeclaration scopes name] := by
  rw [Check.faults_cons, Check.faults_nil, List.append_nil]
  rfl

/-- A declaration that breaks no rule besides. -/
theorem redeclaration_checked {scopes : Scopes} (h : Stands scopes p) (name : Token)
    (hname : p.node.declared? = some name)
    (hclass : ∀ name superclass methods, p.node ≠ .stmt (.classDecl name (some superclass) methods)) :
    Checked p [redeclaration scopes name] := by
  refine ⟨by simp, fun token cause => ?_⟩
  have hdeclares := h.declares name.lexeme
  constructor
  · intro hoffence
    cases hoffence <;> simp_all [Node.declared?, redeclaration]
  · intro hcheck
    obtain ⟨hbroken, rfl, rfl⟩ := Check.mk.inj (List.mem_singleton.mp hcheck)
    exact .alreadyDeclared hname (hdeclares.mp hbroken.symm)

/-- The parameters of a function. -/
theorem ofParams_reported {outer : Scopes} {rest : List Node} : ∀ (params : List Token)
    (done : List Node) {names : Names}, p.node.parts = done ++ params.map .param ++ rest →
    Tallies (names :: outer) p.node done →
    ReportedRow p done.length (params.map .param) (ofParams (names :: outer) params).2.faults ∧
      Tallies (ofParams (names :: outer) params).1 p.node (done ++ params.map .param)
  | [], done, names, _, h => ⟨reportedRow_nil, by simpa [ofParams] using h⟩
  | param :: params, done, names, hparts, h => by
      have hstands : Stands (names :: outer) (p.part done.length (.param param)) :=
        h.stands (hparts.trans (List.append_assoc _ _ _))
      have hchecked := redeclaration_checked hstands param rfl (by simp)
      have hfirst : Reported (p.part done.length (.param param))
          (redeclared (names :: outer) param).faults := by
        rw [redeclared_eq]
        exact hchecked.alone rfl rfl
      obtain ⟨hrow, htallies⟩ := ofParams_reported params (done ++ [.param param])
        (by simpa using hparts) (h.mark rfl true)
      refine ⟨?_, by simpa [ofParams, Scopes.mark] using htallies⟩
      rw [ofParams, Findings.append_faults]
      refine reportedRow_cons hfirst ?_
      simpa [Scopes.mark] using hrow

/-! ### Statements -/

/-- Behind a statement there are the scopes that its own declaration leaves, since what is
nested in it without a block is no declaration. -/
theorem ofStmt_scopes {v : Vocabulary} : ∀ {s : Stmt} (context : Context) (scopes : Scopes),
    s.Worded v → (ofStmt context scopes s).1 = scopes.declare s
  | .expression _, _, _, _ | .print _ _, _, _, _ | .var _ none, _, _, _
  | .var _ (some _), _, _, _ | .block _, _, _, _ | .breakLoop _, _, _, _ | .function _, _, _, _
  | .returnWith _ none, _, _, _ | .returnWith _ (some _), _, _, _
  | .classDecl _ _ _, _, _, _ => rfl
  | .ifElse condition onTrue none, context, scopes, h => by
      cases h with
      | ifElse _ hTrue hnested _ _ =>
          exact (ofStmt_scopes context scopes hTrue).trans (scopes.declare_of_nested hnested)
  | .ifElse condition onTrue (some onFalse), context, scopes, h => by
      cases h with
      | ifElse _ hTrue hnested hFalse hnested' =>
          show (ofStmt context (ofStmt context scopes onTrue).1 onFalse).1 = scopes
          rw [ofStmt_scopes context scopes hTrue, scopes.declare_of_nested hnested,
            ofStmt_scopes context scopes (hFalse onFalse rfl),
            scopes.declare_of_nested (hnested' onFalse rfl)]
  | .whileLoop condition body, context, scopes, h => by
      cases h with
      | whileLoop _ hbody hnested =>
          exact (ofStmt_scopes _ scopes hbody).trans (scopes.declare_of_nested hnested)

/-- Nothing can be wrong with a part that declares nothing and is neither an expression nor
a `return` or `break`. -/
theorem not_offence (hnode : p.node = node) (hdeclared : node.declared? = none)
    (hexpr : ∀ e, node ≠ .expr e) (hreturn : ∀ keyword value, node ≠ .stmt (.returnWith keyword value))
    (hbreak : ∀ keyword, node ≠ .stmt (.breakLoop keyword)) (token : Token)
    (cause : Fault.Cause) : ¬Offence p token cause := by
  subst hnode
  intro h
  cases h <;> simp_all [Node.declared?]

theorem offence_break_iff {keyword : Token} (hnode : p.node = .stmt (.breakLoop keyword))
    {token : Token} {cause : Fault.Cause} : Offence p token cause ↔
      p.inLoop = false ∧ token = keyword ∧ cause = .breakOutsideLoop := by
  constructor
  · intro h
    cases h <;> simp_all [Node.declared?]
  · rintro ⟨hloop, rfl, rfl⟩
    exact .breakOutsideLoop hnode hloop

theorem offence_return_iff {keyword : Token} {value : Option Expr}
    (hnode : p.node = .stmt (.returnWith keyword value)) {token : Token} {cause : Fault.Cause} :
    Offence p token cause ↔ token = keyword ∧
      (p.function? = none ∧ cause = .returnOutsideFunction ∨
        (value.isSome ∧ ∃ method, p.function? = some (.method method) ∧
          method.name.lexeme = initializerName) ∧ cause = .returnValueFromInitializer) := by
  constructor
  · intro h
    cases h with
    | returnValueFromInitializer hnode' hfunction hname =>
        obtain ⟨rfl, rfl⟩ := Stmt.returnWith.inj (Node.stmt.inj (hnode.symm.trans hnode'))
        exact ⟨rfl, Or.inr ⟨⟨rfl, _, hfunction, hname⟩, rfl⟩⟩
    | _ => simp_all [Node.declared?]
  · rintro ⟨rfl, ⟨hfunction, rfl⟩ | ⟨⟨hvalue, method, hfunction, hname⟩, rfl⟩⟩
    · exact .returnOutsideFunction hnode hfunction
    · obtain ⟨value, rfl⟩ := Option.isSome_iff_exists.mp hvalue
      exact .returnValueFromInitializer hnode hfunction hname

theorem offence_class_iff {name : Token} {superclass : Option Occurrence}
    {methods : List FunctionDecl} (hnode : p.node = .stmt (.classDecl name superclass methods))
    {token : Token} {cause : Fault.Cause} : Offence p token cause ↔
      p.Declares name.lexeme ∧ token = name ∧ cause = .alreadyDeclared ∨
        ∃ occurrence ∈ superclass, occurrence.name.lexeme = name.lexeme ∧
          token = occurrence.name ∧ cause = .inheritsFromItself := by
  constructor
  · intro h
    cases h with
    | inheritsFromItself hnode' hname =>
        obtain ⟨rfl, rfl, rfl⟩ := Stmt.classDecl.inj (Node.stmt.inj (hnode.symm.trans hnode'))
        exact Or.inr ⟨_, rfl, hname, rfl, rfl⟩
    | _ => simp_all [Node.declared?]
  · rintro (⟨hdeclares, rfl, rfl⟩ | ⟨occurrence, hsuperclass, hname, rfl, rfl⟩)
    · exact .alreadyDeclared (by rw [hnode]; rfl) hdeclares
    · obtain rfl : superclass = some occurrence := hsuperclass
      exact .inheritsFromItself hnode hname

/-- The innermost function is a function or a method. -/
theorem eq_function_of_function? {f : Node} (h : p.function? = some f) :
    ∃ declaration, f = .function declaration ∨ f = .method declaration := by
  have hfunction := List.find?_some h
  cases f with
  | function declaration => exact ⟨declaration, Or.inl rfl⟩
  | method declaration => exact ⟨declaration, Or.inr rfl⟩
  | _ => cases hfunction

theorem kindOfFunction_eq_none_iff : kindOfFunction p.function? = .none ↔ p.function? = none := by
  constructor
  · intro h
    cases hfunction : p.function? with
    | none => rfl
    | some f =>
        obtain ⟨declaration, rfl | rfl⟩ := eq_function_of_function? hfunction
        · rw [hfunction] at h
          cases h
        · rw [hfunction, kindOfFunction, FunctionKind.ofMethod] at h
          split at h <;> cases h
  · intro h
    rw [h]
    rfl

theorem kindOfFunction_eq_initializer_iff : kindOfFunction p.function? = .initializer ↔
    ∃ method, p.function? = some (.method method) ∧ method.name.lexeme = initializerName := by
  constructor
  · intro h
    cases hfunction : p.function? with
    | none =>
        rw [hfunction] at h
        cases h
    | some f =>
        obtain ⟨declaration, rfl | rfl⟩ := eq_function_of_function? hfunction
        · rw [hfunction] at h
          cases h
        · rw [hfunction, kindOfFunction, FunctionKind.ofMethod] at h
          split at h
          · rename_i hname
            exact ⟨declaration, rfl, hname⟩
          · cases h
  · rintro ⟨method, h, hname⟩
    rw [h, kindOfFunction, FunctionKind.ofMethod, if_pos hname]

theorem break_reported {context : Context} {scopes : Scopes} (hfits : Fits context p)
    {keyword : Token} (hnode : p.node = .stmt (.breakLoop keyword)) :
    Reported p (ofStmt context scopes (.breakLoop keyword)).2.faults := by
  let check : Check := ⟨!context.inLoop, keyword, .breakOutsideLoop⟩
  have hchecked : Checked p [check] := by
    refine ⟨by simp, fun token cause => ?_⟩
    rw [offence_break_iff hnode, ← hfits.inLoop]
    simp [check]
  simpa [check, ofStmt, Check.faults_cons, Check.faults_nil] using hchecked.alone hnode rfl

/-- What can be wrong with a `return`. -/
def returnChecks (context : Context) (keyword : Token) (value : Option Expr) : List Check :=
  [⟨context.function = .none, keyword, .returnOutsideFunction⟩,
    ⟨value.isSome && decide (context.function = .initializer), keyword,
      .returnValueFromInitializer⟩]

theorem return_checked {context : Context} (hfits : Fits context p) {keyword : Token}
    {value : Option Expr} (hnode : p.node = .stmt (.returnWith keyword value)) :
    Checked p (returnChecks context keyword value) := by
  refine ⟨by simp [returnChecks], fun token cause => ?_⟩
  rw [offence_return_iff hnode, ← kindOfFunction_eq_none_iff, ← kindOfFunction_eq_initializer_iff,
    ← hfits.function]
  simp [returnChecks]
  tauto

/-- What can be wrong with a class. -/
def classChecks (scopes : Scopes) (name : Token) (superclass : Option Occurrence) : List Check :=
  redeclaration scopes name :: superclass.toList.map fun occurrence =>
    ⟨occurrence.name.lexeme = name.lexeme, occurrence.name, .inheritsFromItself⟩

theorem class_checked {scopes : Scopes} (h : Stands scopes p) {name : Token}
    {superclass : Option Occurrence} {methods : List FunctionDecl}
    (hnode : p.node = .stmt (.classDecl name superclass methods)) :
    Checked p (classChecks scopes name superclass) := by
  refine ⟨by cases superclass <;> simp [classChecks, redeclaration], fun token cause => ?_⟩
  rw [offence_class_iff hnode, ← h.declares]
  cases superclass <;> simp [classChecks, redeclaration]

mutual

theorem ofStmt_reported {v : Vocabulary} {context : Context} {scopes : Scopes} {p : Place}
    (hfits : Fits context p) (hsettled : scopes.Settled) : ∀ {s : Stmt}, s.Worded v →
    p.node = .stmt s → (s.isDeclaration = true → Stands scopes p) →
    Reported p (ofStmt context scopes s).2.faults
  | .expression value, _, hnode, _ | .print _ value, _, hnode, _ => by
      refine .of_inside (not_offence hnode rfl (by simp) (by simp) (by simp)) hnode ?_
      have hvalue : Situated context scopes (p.part 0 (.expr value)) :=
        hfits.settled hsettled hnode rfl
      rw [ofStmt]
      exact reportedRow_single (ofExpr_reported hvalue rfl)
  | .var name none, _, hnode, hstands => by
      have hchecked := redeclaration_checked (hstands rfl) name (by rw [hnode]; rfl)
        (by simp [hnode])
      rw [ofStmt, redeclared_eq]
      exact hchecked.alone hnode rfl
  | .var name (some value), _, hnode, hstands => by
      have hchecked := redeclaration_checked (hstands rfl) name (by rw [hnode]; rfl)
        (by simp [hnode])
      have hvalue : Situated context (scopes.mark name.lexeme false) (p.part 0 (.expr value)) :=
        hfits.situated hnode rfl ((hstands rfl).reads hsettled hnode)
      rw [ofStmt, Findings.append_faults, redeclared_eq]
      exact hchecked.inside hnode (reportedRow_single (ofExpr_reported hvalue rfl))
  | .block body, h, hnode, _ => by
      refine .of_inside (not_offence hnode rfl (by simp) (by simp) (by simp)) hnode ?_
      cases h with
      | block h =>
          have hpart : ∀ position s, Fits context (p.part position (.stmt s)) := fun _ _ =>
            hfits.part hnode rfl rfl rfl
          exact ofStmts_reported hpart [] h (by rw [hnode]; rfl)
            (Scopes.settled_push scopes) (Tallies.push scopes (by rw [hnode]; rfl))
  | .ifElse condition onTrue onFalse, h, hnode, _ => by
      refine .of_inside (not_offence hnode rfl (by simp) (by simp) (by simp)) hnode ?_
      cases h with
      | ifElse _ hTrue hnested hFalse hnested' =>
          have hpart : ∀ {position node}, Fits context (p.part position node) :=
            hfits.part hnode rfl rfl rfl
          have hcondition : Reported (p.part 0 (.expr condition))
              (ofExpr context scopes condition).faults :=
            ofExpr_reported (hfits.settled hsettled hnode rfl) rfl
          have hchosen : Reported (p.part 1 (.stmt onTrue))
              (ofStmt context scopes onTrue).2.faults :=
            ofStmt_reported hpart hsettled hTrue rfl (by simp [hnested])
          have hscopes := (ofStmt_scopes context scopes hTrue).trans
            (scopes.declare_of_nested hnested)
          cases onFalse with
          | none =>
              rw [ofStmt, Findings.append_faults]
              exact reportedRow_cons hcondition (reportedRow_single hchosen)
          | some other =>
              have hother : Reported (p.part 2 (.stmt other))
                  (ofStmt context scopes other).2.faults :=
                ofStmt_reported hpart hsettled (hFalse other rfl) rfl (by simp [hnested' other rfl])
              simp only [ofStmt, hscopes, Findings.append_faults, List.append_assoc]
              exact reportedRow_cons hcondition
                (reportedRow_cons hchosen (reportedRow_single hother))
  | .whileLoop condition body, h, hnode, _ => by
      refine .of_inside (not_offence hnode rfl (by simp) (by simp) (by simp)) hnode ?_
      cases h with
      | whileLoop _ hbody hnested =>
          have hcondition : Reported (p.part 0 (.expr condition))
              (ofExpr context scopes condition).faults :=
            ofExpr_reported (hfits.settled hsettled hnode rfl) rfl
          have hrepeated : Reported (p.part 1 (.stmt body))
              (ofStmt { context with inLoop := true } scopes body).2.faults :=
            ofStmt_reported (hfits.loop hnode) hsettled hbody rfl (by simp [hnested])
          rw [ofStmt, Findings.append_faults]
          exact reportedRow_cons hcondition (reportedRow_single hrepeated)
  | .breakLoop keyword, _, hnode, _ => break_reported hfits hnode
  | .function declaration, h, hnode, hstands => by
      have hchecked := redeclaration_checked (hstands rfl) declaration.name (by rw [hnode]; rfl)
        (by simp [hnode])
      cases h with
      | function h =>
          have hfunction : Fits context (p.part 0 (.function declaration)) :=
            hfits.part hnode rfl rfl rfl
          rw [ofStmt, Findings.append_faults, redeclared_eq]
          exact hchecked.inside hnode (reportedRow_single
            (ofFunction_reported (fun _ _ => hfunction.inFunction rfl) h (Or.inl rfl)))
  | .returnWith keyword value, h, hnode, _ => by
      have hchecked := return_checked hfits hnode
      cases value with
      | none =>
          have hvalue : (Findings.faultIf false keyword .returnValueFromInitializer).faults = [] :=
            faultIf_faults.mpr rfl
          simpa [ofStmt, returnChecks, Check.faults_cons, Check.faults_nil, hvalue]
            using hchecked.alone hnode rfl
      | some value =>
          have hvalue : Situated context scopes (p.part 0 (.expr value)) :=
            hfits.settled hsettled hnode rfl
          simpa [ofStmt, returnChecks, Check.faults_cons, Check.faults_nil]
            using hchecked.inside hnode (reportedRow_single (ofExpr_reported hvalue rfl))
  | .classDecl name superclass methods, h, hnode, hstands => by
      have hchecked := class_checked (hstands rfl) hnode
      cases h with
      | classDecl _ _ hmethods =>
          have hinside : (scopes.mark name.lexeme true).Settled := hsettled.mark _
          let inner : Context :=
            { context with classKind := if superclass.isSome then .derived else .plain }
          let found := (ofMethods inner
            (classScopes (scopes.mark name.lexeme true) superclass) methods).faults
          have hrow (position : Nat) : ReportedRow p position (methods.map .method) found :=
            ofMethods_reported (fun _ _ => hfits.inClass hnode) position hmethods
          cases superclass with
          | none =>
              simpa [ofStmt, redeclared_eq, ofSuperclass, classChecks, Findings.nothing, found, inner]
                using hchecked.inside hnode (hrow 0)
          | some occurrence =>
              let read := (ofExpr inner (scopes.mark name.lexeme true) (.use occurrence)).faults
              have hread : Reported (p.part 0 (.expr (.use occurrence))) read :=
                use_reported (hinside.reads hnode (by simp)) rfl
              simpa [ofStmt, redeclared_eq, ofSuperclass, classChecks, Check.faults_cons,
                Check.faults_nil, read, found, inner]
                using hchecked.inside hnode (reportedRow_cons hread (hrow 1))

theorem ofStmts_reported {v : Vocabulary} {context : Context} {p : Place}
    (hfits : ∀ position s, Fits context (p.part position (.stmt s))) : ∀ {body : List Stmt}
    (done : List Node) {scopes : Scopes}, (∀ s ∈ body, s.Worded v) →
    p.node.parts = done ++ body.map .stmt → scopes.Settled → Tallies scopes p.node done →
    ReportedRow p done.length (body.map .stmt) (ofStmts context scopes body).faults
  | [], _, _, _, _, _, _ => reportedRow_nil
  | s :: rest, done, scopes, h, hparts, hsettled, htallies => by
      rw [List.forall_mem_cons] at h
      have hfirst := ofStmt_reported (hfits done.length s) hsettled h.1 rfl
        fun _ => htallies.stands hparts
      have hrest := ofStmts_reported hfits (done ++ [.stmt s]) h.2 (by simpa using hparts)
        (hsettled.declare s) (htallies.declare s)
      rw [ofStmts, Findings.append_faults, ofStmt_scopes context scopes h.1]
      exact reportedRow_cons hfirst (by simpa using hrest)

theorem ofFunction_reported {v : Vocabulary} {context : Context} {scopes : Scopes} {p : Place}
    (hfits : ∀ position s, Fits context (p.part position (.stmt s))) : ∀ {f : FunctionDecl},
    f.Worded v → p.node = .function f ∨ p.node = .method f →
    Reported p (ofFunction context scopes f).faults
  | ⟨name, params, body⟩, h, hnode => by
      have hparts : p.node.parts = params.map .param ++ body.map .stmt := by
        rcases hnode with hnode | hnode <;> rw [hnode] <;> rfl
      have hscope : p.node.isScope = true := by
        rcases hnode with hnode | hnode <;> rw [hnode] <;> rfl
      have hnone : ∀ token cause, ¬Offence p token cause := by
        rcases hnode with hnode | hnode <;>
          exact not_offence hnode rfl (by simp) (by simp) (by simp)
      cases h with
      | mk _ _ hbody =>
          obtain ⟨hparams, htallies⟩ := ofParams_reported params []
            hparts (Tallies.push scopes hscope)
          have hsettled : (ofParams ([] :: scopes) params).1.Settled := by
            rw [ofParams_scopes]
            exact settled_paramNames params scopes
          have hrow := ofStmts_reported hfits _ hbody hparts hsettled htallies
          refine .of_inside hnone rfl ?_
          rw [hparts, ofFunction, Findings.append_faults]
          exact reportedRow_append hparams (by simpa using hrow)

theorem ofMethods_reported {v : Vocabulary} {context : Context} {scopes : Scopes} {p : Place}
    (hfits : ∀ position f, Fits context (p.part position (.method f))) :
    ∀ {methods : List FunctionDecl} (position : Nat), (∀ f ∈ methods, f.Worded v) →
    ReportedRow p position (methods.map .method) (ofMethods context scopes methods).faults
  | [], _, _ => reportedRow_nil
  | method :: rest, position, h => by
      rw [List.forall_mem_cons] at h
      rw [ofMethods, Findings.append_faults]
      exact reportedRow_cons
        (ofFunction_reported (fun _ _ => (hfits position method).inMethod rfl) h.1 (Or.inr rfl))
        (ofMethods_reported hfits (position + 1) h.2)

end

/-! ### Programs -/

/-- What the analysis reports are the offences in the program, each once. -/
theorem analyse_reported {v : Vocabulary} {program : List Stmt} (h : ∀ s ∈ program, s.Worded v) :
    Reported (.whole program) (analyse program).faults := by
  have htop : ∀ position s, Fits .topLevel ((whole program).part position (.stmt s)) :=
    fun _ _ => ⟨rfl, rfl, rfl⟩
  have hrow := ofStmts_reported htop [] h rfl Scopes.settled_nil
    ⟨by simp [whole, Node.isScope], by simp [whole, Node.isScope, Scopes.declaresInnermost]⟩
  have hnode : (whole program).node = .program program := rfl
  exact .of_inside (not_offence hnode rfl (by simp) (by simp) (by simp)) hnode hrow

/-- **The analysis reports exactly the offences.**  Of a program that was read without a
fault it reports each offence once, at its token and with its cause, and nothing else; so
it has nothing to report if and only if there is no offence at any place in the program. -/
theorem analyse_exact (tokens : List Token) (endLine lastId : Nat)
    (h : (Grammar.parse tokens endLine lastId).faults = []) :
    let program := (Grammar.parse tokens endLine lastId).program
    (∃ reports : List Report, reports.Nodup ∧
      (∀ report, report ∈ reports ↔ report.place.IsIn program ∧ report.Holds) ∧
      (analyse program).faults = reports.map Report.fault) ∧
    ((analyse program).faults = [] ↔
      ∀ p : Place, p.IsIn program → ∀ token cause, ¬Offence p token cause) := by
  intro program
  have hworded : ∀ s ∈ program, s.Worded .any :=
    (Grammar.parse_sound h).worded (Grammar.Derives.allows_any tokens)
  obtain ⟨reports, hnodup, hmem, hfaults⟩ := analyse_reported hworded
  refine ⟨⟨reports, hnodup, hmem, hfaults⟩, ?_⟩
  rw [hfaults, List.map_eq_nil_iff, List.eq_nil_iff_forall_not_mem]
  constructor
  · intro hnone p hp token cause hoffence
    exact hnone ⟨p, token, cause⟩ ((hmem _).mpr ⟨hp, hoffence⟩)
  · intro hnone report hreport
    obtain ⟨hp, hoffence⟩ := (hmem report).mp hreport
    exact hnone report.place hp report.token report.cause hoffence

/-- A `return` that no function is around is an offence. -/
theorem stray_return_offends :
    (Grammar.parse [⟨.kwReturn, "return", 1⟩, ⟨.semicolon, ";", 1⟩] 1 0).faults = [] ∧
    ∃ p token cause, Place.IsIn [.returnWith ⟨.kwReturn, "return", 1⟩ none] p ∧
      Offence p token cause := by
  have hparse : (Grammar.parse [⟨.kwReturn, "return", 1⟩, ⟨.semicolon, ";", 1⟩] 1 0).faults = [] :=
    rfl
  refine ⟨hparse, ?_⟩
  by_contra hnone
  have hfaults := (analyse_exact _ 1 0 hparse).2.mpr fun p hp token cause hoffence =>
    hnone ⟨p, token, cause, hp, hoffence⟩
  exact absurd hfaults (by decide)

end Lox.Scope
