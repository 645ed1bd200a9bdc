/-
Binding survives.

A declaration in a body is written as a form that is left open for all that follows it
there, and functions, loops and classes bind names for their ways out and their
receivers.  So what is bound at a place in the data of a program is, form by form, what
is around the place and what was declared in front of it (`Placed`); and this is what the
analysis made the distances from.
-/
import Lox.Proofs.Scheme.Meanings
import Lox.Proofs.Scheme.Programs
import Lox.Proofs.Scope.Exactness

namespace Lox.Scheme

open Scope Place

/-! ### Parameters -/

theorem getElem?_of_drop {α : Type} {row rest : List α} {a : α} {position : Nat}
    (h : row.drop position = a :: rest) :
    row[position]? = some a ∧ row.drop (position + 1) = rest := by
  constructor
  · have hhead := congrArg (·[0]?) h
    simpa using hhead
  · rw [← List.drop_drop, h]
    rfl

/-- What is bound for the parameters of a function, the first at the position. -/
def paramBound (p : Place) : Nat → List Token → Bound
  | _, [] => []
  | position, param :: rest =>
      (symbol param, some (p.part position (.param param))) :: paramBound p (position + 1) rest

theorem paramData_names (p : Place) (position : Nat) (params : List Token) :
    (paramData p position params).mapM name? = some (paramBound p position params) := by
  induction params generalizing position with
  | nil => rfl
  | cons param rest ih => simp [paramData, paramBound, mention, name?, ih]

theorem paramBound_variables (p : Place) (position : Nat) (params : List Token) :
    ∀ name ∈ paramBound p position params, ∃ x, name.1 = "lox:" ++ x := by
  induction params generalizing position with
  | nil => exact fun _ h => absurd h List.not_mem_nil
  | cons param rest ih => exact List.forall_mem_cons.mpr ⟨⟨param.lexeme, rfl⟩, ih _⟩

theorem paramBound_binders {program : List Stmt} {p : Place} (hin : p.IsIn program)
    {params : List Token} {rest : List Node} (position : Nat)
    (hparts : p.node.parts.drop position = params.map .param ++ rest) :
    ∀ name ∈ paramBound p position params, Binder program name := by
  induction params generalizing position with
  | nil => exact fun _ h => absurd h List.not_mem_nil
  | cons param others ih =>
      obtain ⟨hpart, hparts⟩ := getElem?_of_drop hparts
      exact List.forall_mem_cons.mpr ⟨.declaration (hin.inside hpart) rfl, ih _ hparts⟩

theorem lookup_paramBound (p : Place) (position : Nat) {i : Nat} {params : List Token} {param : Token}
    (hdistinct : (params.map Token.lexeme).Nodup) (hparam : params[i]? = some param)
    (bound : Bound) : (paramBound p position params ++ bound).lookup (symbol param)
      = some (some (p.part (position + i) (.param param))) := by
  induction params generalizing position i with
  | nil => cases hparam
  | cons first rest ih =>
      rw [List.map_cons, List.nodup_cons] at hdistinct
      cases i with
      | zero =>
          obtain rfl : first = param := Option.some.inj hparam
          simp [paramBound]
      | succ i =>
          have hne : symbol param ≠ symbol first := fun heq => by
            have hmem : param.lexeme ∈ rest.map Token.lexeme :=
              List.mem_map.mpr ⟨param, List.mem_of_getElem? hparam, rfl⟩
            rw [variable_injective heq] at hmem
            exact hdistinct.1 hmem
          rw [paramBound, List.cons_append, List.lookup_cons, beq_false_of_ne hne, ih _ hdistinct.2 hparam,
            Nat.add_assoc, Nat.add_comm 1 i]

theorem lookup_paramBound_of_not_mem {p : Place} {position : Nat} {params : List Token}
    {name : String} (h : name ∉ params.map Token.lexeme) (bound : Bound) :
    (paramBound p position params ++ bound).lookup ("lox:" ++ name)
      = bound.lookup ("lox:" ++ name) := by
  induction params generalizing position with
  | nil => rfl
  | cons first rest ih =>
      rw [List.map_cons, List.mem_cons, not_or] at h
      rw [paramBound, List.cons_append, List.lookup_cons, symbol,
        beq_false_of_ne fun heq => h.1 (variable_injective heq), ih h.2]

theorem binds_paramNames (params : List Token) (name : String) :
    (paramNames params).binds name = decide (name ∈ params.map Token.lexeme) := by
  rw [Bindings.binds, get?_paramNames]
  split <;> simp_all

/-- The scope of a function is entered, with its parameters declared. -/
theorem Follows.params {bound : Bound} {scopes : Scopes} {p : Place} {params : List Token}
    {body : List Node} (h : Follows bound scopes (visible p.site)) (hsettled : scopes.Settled)
    (hparts : p.node.parts = params.map .param ++ body)
    (hdistinct : (params.map Token.lexeme).Nodup) :
    Follows (paramBound p 0 params ++ bound) (paramNames params :: scopes)
      ((p, params.length) :: visible p.site) := by
  have hpart : ∀ i : Nat, i < params.length →
      p.node.parts[i]? = (params[i]?).map .param := fun i hi => by
    rw [hparts, List.getElem?_append_left (by simpa using hi), List.getElem?_map]
  refine ⟨by simp [h.length], fun name hname hnone => ?_, fun name distance hname _ hdistance => ?_⟩
  · rw [Scopes.distance?_cons, binds_paramNames] at hnone
    by_cases hmem : name ∈ params.map Token.lexeme
    · simp only [hmem, decide_true, if_true, reduceCtorEq] at hnone
    · rw [lookup_paramBound_of_not_mem hmem]
      exact h.free name hname (by simpa [hmem] using hnone)
  · rw [Scopes.distance?_cons, binds_paramNames] at hdistance
    by_cases hmem : name ∈ params.map Token.lexeme
    · obtain rfl : 0 = distance := by simpa [hmem] using hdistance
      obtain ⟨param, hparam, rfl⟩ := List.mem_map.mp hmem
      obtain ⟨i, hi, hat⟩ := List.mem_iff_getElem.mp hparam
      have hat : params[i]? = some param := List.getElem?_eq_some_iff.mpr ⟨hi, hat⟩
      have hbound := lookup_paramBound p 0 hdistinct hat bound
      rw [Nat.zero_add] at hbound
      refine ⟨p.part i (.param param), ⟨p, params.length, rfl, ⟨i, .param param, hi, ?_, ?_, rfl,
        fun j other hij hj hother => ?_⟩⟩, hbound⟩
      · rw [hpart i hi, hat]
        rfl
      · simp [Node.declares, Node.declared?]
      · rw [hpart j hj, List.getElem?_eq_getElem hj] at hother
        obtain rfl := Option.some.inj hother
        have hne : params[j].lexeme ≠ param.lexeme := fun heq => by
          have hnames : ∀ {k : Nat} {token : Token}, params[k]? = some token →
              (params.map Token.lexeme)[k]? = some token.lexeme := fun h => by
            rw [List.getElem?_map, h]
            rfl
          have hsame := (hnames (List.getElem?_eq_getElem hj)).trans
            ((congrArg some heq).trans (hnames hat).symm)
          have hij' := (List.getElem?_inj (by simpa using hj) hdistinct).mp hsame
          omega
        simpa [Node.declares, Node.declared?] using hne
    · obtain ⟨outer, houter, rfl⟩ : ∃ outer, scopes.distance? name = some outer ∧
          outer + 1 = distance := by simpa [hmem] using hdistance
      rw [lookup_paramBound_of_not_mem hmem]
      obtain ⟨declaration, ⟨scope, count, hscope, hlatest⟩, hbound⟩ :=
        h.denoted name outer hname (hsettled name) houter
      exact ⟨declaration, ⟨scope, count, hscope, hlatest⟩, hbound⟩

/-! ### Places and what is bound there -/

/-- What is bound at a place is what is around it and what was declared in front of it. -/
structure Placed (program : List Stmt) (scopes : Scopes) (bound : Bound) (p : Place) : Prop where
  isIn : p.IsIn program
  framed : Framed scopes bound p.site
  follows : Follows bound scopes (visible p.site)

theorem enclosing?_of_not {p : Place} {kind : Node → Bool} (h : kind p.node = false) :
    p.enclosing? kind = enclosing?.around? kind p.site := by
  rw [enclosing?, if_neg (by simp [h])]

namespace Placed

variable {program : List Stmt} {scopes : Scopes} {bound : Bound} {p : Place}

/-- Most parts bind nothing and open no scopes. -/
theorem part (h : Placed program scopes bound p) {position : Nat} {node : Node}
    (hpart : p.node.parts[position]? = some node)
    (howner : ∀ entry ∈ owners, entry.2 p.node = false) (hscopes : p.node.scopesAt position = 0) :
    Placed program scopes bound (p.part position node) :=
  ⟨h.isIn.inside hpart, h.framed.part howner position, by
    rw [visible_part hscopes]
    exact h.follows⟩

theorem expr (h : Placed program scopes bound p) {e : Expr} (hnode : p.node = .expr e)
    {position : Nat} {node : Node} (hpart : (Node.ofExpr e)[position]? = some node) :
    Placed program scopes bound (p.part position node) :=
  h.part (by rw [hnode]; exact hpart)
    (by rw [hnode]; exact not_owner rfl rfl rfl) (by rw [hnode]; rfl)

/-- What is around the place is bound there. -/
theorem own (h : Placed program scopes bound p) {r : Resolution}
    (entry : String × (Node → Bool)) (hentry : entry ∈ owners) (hnode : entry.2 p.node = false)
    (huse : ∀ occurrence, p.node ≠ .expr (.use occurrence))
    (hsome : (enclosing?.around? entry.2 p.site).isSome) :
    Faithful r program bound (mention p entry.1) := by
  obtain ⟨owner, howner⟩ := Option.isSome_iff_exists.mp hsome
  refine .symbol (.own entry hentry h.isIn huse ((enclosing?_of_not hnode).trans howner) ?_)
  rw [h.framed.own entry hentry, howner]
  rfl

end Placed

/-! ### Expressions -/

variable {r : Resolution} {program : List Stmt}

theorem faithful_literal (value : Literal) (bound : Bound) :
    Faithful r program bound (literalDatum value) := by
  cases value with
  | string text => exact .string text
  | number value => exact .word (not_isOwn_number value)
  | nil => exact .word (not_isOwn_of_mem _ (by decide))
  | bool value => cases value <;> exact .word (not_isOwn_of_mem _ (by decide))

theorem faithful_use {scopes : Scopes} {bound : Bound} {p : Place} {occurrence : Occurrence}
    (hin : p.IsIn program) (hfollows : Follows bound scopes (visible p.site))
    (hnode : p.node = .expr (.use occurrence)) (h : ResolvedExpr r scopes (.use occurrence)) :
    Faithful r program bound (mention p (symbol occurrence.name)) := by
  cases h with
  | use hrefers hname hread =>
      refine .symbol (.use hin hnode (fun distance hdistance => ?_) fun hnone => ?_)
      · rw [hrefers.distance] at hdistance
        exact hfollows.denoted _ distance hname hread hdistance
      · rw [hrefers.distance] at hnone
        exact hfollows.free _ hname hnone

mutual

theorem faithful_expr {scopes : Scopes} {bound : Bound} {p : Place}
    (h : Placed program scopes bound p) : ∀ {e : Expr}, e.Worded vocabulary →
    ResolvedExpr r scopes e → p.node = .expr e → Faithful r program bound (exprDatum p e)
  | .literal value, _, _, _ => faithful_literal value bound
  | .group inner, hworded, hresolved, hnode => by
      cases hworded with
      | group hworded =>
          cases hresolved with
          | group hresolved => exact faithful_expr (h.expr hnode rfl) hworded hresolved rfl
  | .unary operator operand, hworded, hresolved, hnode => by
      cases hworded with
      | unary _ hworded =>
          cases hresolved with
          | unary hresolved =>
              refine .applied (by split <;> decide) (List.forall_mem_singleton.mpr ?_)
              exact faithful_expr (h.expr hnode rfl) hworded hresolved rfl
  | .binary operator left right, hworded, hresolved, hnode => by
      cases hworded with
      | binary hoperator hwleft hwright =>
          cases hresolved with
          | binary hleft hright =>
              have hmem : operatorName operator ∈ operatorNames := hoperator
              refine .applied (by simp [formNames, hmem]) (List.forall_mem_cons.mpr ⟨?_,
                List.forall_mem_singleton.mpr ?_⟩)
              · exact faithful_expr (h.expr hnode rfl) hwleft hleft rfl
              · exact faithful_expr (h.expr hnode rfl) hwright hright rfl
  | .logical operator left right, hworded, hresolved, hnode => by
      cases hworded with
      | logical hoperator hwleft hwright =>
          cases hresolved with
          | logical hleft hright =>
              have hmem : operator.lexeme ∈ connectiveNames := hoperator
              refine .applied (by simp [formNames, hmem]) (List.forall_mem_cons.mpr ⟨?_,
                List.forall_mem_singleton.mpr ?_⟩)
              · exact faithful_expr (h.expr hnode rfl) hwleft hleft rfl
              · exact faithful_expr (h.expr hnode rfl) hwright hright rfl
  | .conditional condition onTrue onFalse, hworded, hresolved, hnode => by
      cases hworded with
      | conditional hwcondition hwTrue hwFalse =>
          cases hresolved with
          | conditional hcondition hTrue hFalse =>
              refine .applied (by decide) (List.forall_mem_cons.mpr ⟨?_,
                List.forall_mem_cons.mpr ⟨?_, List.forall_mem_singleton.mpr ?_⟩⟩)
              · exact faithful_expr (h.expr hnode rfl) hwcondition hcondition rfl
              · exact faithful_expr (h.expr hnode rfl) hwTrue hTrue rfl
              · exact faithful_expr (h.expr hnode rfl) hwFalse hFalse rfl
  | .use _, _, hresolved, hnode => faithful_use h.isIn h.follows hnode hresolved
  | .assign target value, hworded, hresolved, hnode => by
      cases hworded with
      | assign _ hwvalue =>
          cases hresolved with
          | assign _ _ hvalue =>
              have htarget : Faithful r program bound (mention p (symbol target.name)) :=
                .symbol (.target h.isIn hnode)
              have hset : Faithful r program bound (applied "set!" [mention p (symbol target.name),
                  exprDatum (p.part 0 (.expr value)) value]) :=
                .applied (by decide) (List.forall_mem_cons.mpr ⟨htarget,
                  List.forall_mem_singleton.mpr
                    (faithful_expr (h.expr hnode rfl) hwvalue hvalue rfl)⟩)
              exact .applied (by decide) (List.forall_mem_cons.mpr ⟨hset,
                List.forall_mem_singleton.mpr htarget⟩)
  | .call callee _ arguments, hworded, hresolved, hnode => by
      cases hworded with
      | call hwcallee _ hwarguments =>
          cases hresolved with
          | call hcallee harguments =>
              refine .applied (by decide) (List.forall_mem_cons.mpr ⟨?_, ?_⟩)
              · exact faithful_expr (h.expr hnode rfl) hwcallee hcallee rfl
              · exact faithful_exprs h hnode 1 hwarguments harguments rfl
  | .get object name, hworded, hresolved, hnode => by
      cases hworded with
      | get hwobject _ =>
          cases hresolved with
          | get hobject =>
              refine .applied (by decide) (List.forall_mem_cons.mpr ⟨?_,
                List.forall_mem_singleton.mpr (.quoted _)⟩)
              exact faithful_expr (h.expr hnode rfl) hwobject hobject rfl
  | .set object name value, hworded, hresolved, hnode => by
      cases hworded with
      | set hwobject _ hwvalue =>
          cases hresolved with
          | set hobject hvalue =>
              refine .applied (by decide) (List.forall_mem_cons.mpr ⟨?_,
                List.forall_mem_cons.mpr ⟨.quoted _, List.forall_mem_singleton.mpr ?_⟩⟩)
              · exact faithful_expr (h.expr hnode rfl) hwobject hobject rfl
              · exact faithful_expr (h.expr hnode rfl) hwvalue hvalue rfl
  | .this receiver, _, hresolved, hnode => by
      cases hresolved with
      | this _ _ hthis =>
          exact h.own ("this", Node.isMethod) (by simp [owners]) (by rw [hnode]; rfl)
            (by simp [hnode]) (h.framed.this (by rw [hthis]; rfl))
  | .super keyword method, _, hresolved, hnode => by
      cases hresolved with
      | super _ _ hthis hsuper =>
          refine .applied (by decide) (List.forall_mem_cons.mpr ⟨?_,
            List.forall_mem_cons.mpr ⟨?_, List.forall_mem_singleton.mpr (.quoted _)⟩⟩)
          · exact h.own ("%super", Node.isClass) (by simp [owners]) (by rw [hnode]; rfl)
              (by simp [hnode]) (h.framed.super (by rw [hsuper]; rfl))
          · exact h.own ("this", Node.isMethod) (by simp [owners]) (by rw [hnode]; rfl)
              (by simp [hnode]) (h.framed.this (by rw [hthis]; rfl))

theorem faithful_exprs {scopes : Scopes} {bound : Bound} {p : Place} {e : Expr}
    (h : Placed program scopes bound p) (hnode : p.node = .expr e) : ∀ {row : List Expr}
    (position : Nat), (∀ e ∈ row, e.Worded vocabulary) → (∀ e ∈ row, ResolvedExpr r scopes e) →
    (Node.ofExpr e).drop position = row.map .expr →
    ∀ d ∈ exprData p position row, Faithful r program bound d
  | [], _, _, _, _ => fun _ hd => absurd hd List.not_mem_nil
  | first :: rest, position, hworded, hresolved, hparts => by
      obtain ⟨hpart, hparts⟩ := getElem?_of_drop hparts
      rw [List.forall_mem_cons] at hworded hresolved
      exact List.forall_mem_cons.mpr
        ⟨faithful_expr (h.expr hnode hpart) hworded.1 hresolved.1 rfl,
          faithful_exprs h hnode (position + 1) hworded.2 hresolved.2 hparts⟩

end

/-! ### Functions, loops and classes -/

namespace Framed

variable {scopes : Scopes} {bound : Bound} {p : Place}

/-- The position of a part does not matter. -/
theorem move {node : Node} {position : Nat} {site : List (Node × Nat)}
    (h : Framed scopes bound ((node, position) :: site)) (other : Nat) :
    Framed scopes bound ((node, other) :: site) :=
  ⟨h.owned, h.own, h.this, h.super⟩

/-- In a part that has names bound for it. -/
theorem inside (h : Framed scopes bound p.site) (names : List String)
    (howned : ∀ text ∈ names, text ∈ ownNames)
    (hnames : ∀ entry ∈ owners, (names.map fun text => (text, some p)).lookup entry.1
      = if entry.2 p.node then some (some p) else none) (position : Nat) :
    Framed scopes ((names.map fun text => (text, some p)) ++ bound)
      ((p.node, position) :: p.site) := by
  have hnew : Owned (names.map fun text => (text, some p)) := fun name hname => by
    obtain ⟨text, htext, rfl⟩ := List.mem_map.mp hname
    exact Or.inr (howned text htext)
  have hstays : ∀ kind : Node → Bool, (enclosing?.around? kind p.site).isSome →
      (enclosing?.around? kind ((p.node, position) :: p.site)).isSome := fun kind hsome => by
    rw [enclosing?.around?]
    split
    · rfl
    · exact hsome
  refine ⟨h.owned.append hnew, fun entry hentry => ?_, fun hthis => hstays _ (h.this hthis),
    fun hsuper => hstays _ (h.super hsuper)⟩
  rw [List.lookup_append, hnames entry hentry, h.own entry hentry, enclosing?.around?]
  split <;> rfl

theorem inFunction (h : Framed scopes bound p.site) {f : FunctionDecl}
    (hnode : p.node = .function f) (position : Nat) :
    Framed scopes (("%return", some p) :: bound) ((p.node, position) :: p.site) := by
  refine h.inside ["%return"] (by decide) ?_ position
  rw [hnode]
  simp [owners, Node.isMethod, Node.isClass, Node.isFunction, Node.isLoop, List.lookup_cons]

theorem inLoop (h : Framed scopes bound p.site) {condition : Expr} {body : Stmt}
    (hnode : p.node = .stmt (.whileLoop condition body)) (position : Nat) :
    Framed scopes (("%loop", some p) :: ("%break", some p) :: bound)
      ((p.node, position) :: p.site) := by
  refine h.inside ["%loop", "%break"] (by decide) ?_ position
  rw [hnode]
  simp [owners, Node.isMethod, Node.isClass, Node.isFunction, Node.isLoop, List.lookup_cons]

theorem inClass (h : Framed scopes bound p.site) {name : Token} {superclass : Option Occurrence}
    {methods : List FunctionDecl} (hnode : p.node = .stmt (.classDecl name superclass methods))
    (position : Nat) :
    Framed scopes (("%super", some p) :: bound) ((p.node, position) :: p.site) := by
  refine h.inside ["%super"] (by decide) ?_ position
  rw [hnode]
  simp [owners, Node.isMethod, Node.isClass, Node.isFunction, Node.isLoop, List.lookup_cons]

/-- In a method, which is in a class; only there the names of the receiver and of the
superclass are in scope. -/
theorem inMethod (h : Framed scopes bound p.site) {f : FunctionDecl} (hnode : p.node = .method f)
    (hclass : (enclosing?.around? Node.isClass p.site).isSome) (inner : Scopes) (position : Nat) :
    Framed inner (("%return", some p) :: ("this", some p) :: bound)
      ((p.node, position) :: p.site) := by
  have hinside : Framed scopes (("%return", some p) :: ("this", some p) :: bound)
      ((p.node, position) :: p.site) := by
    refine h.inside ["%return", "this"] (by decide) ?_ position
    rw [hnode]
    simp [owners, Node.isMethod, Node.isClass, Node.isFunction, Node.isLoop, List.lookup_cons]
  refine ⟨hinside.owned, hinside.own, fun _ => ?_, fun _ => ?_⟩
  · rw [enclosing?.around?, hnode]
    rfl
  · rw [enclosing?.around?, hnode]
    exact hclass

end Framed

/-! ### Statements -/

/-- The scopes in which the value of a declaration is read. -/
def opened (scopes : Scopes) : Stmt → Scopes
  | .var name _ => scopes.mark name.lexeme false
  | s => scopes.declare s

/-- How a declaration in a body is bound, and what it declares. -/
theorem binder?_cases {s : Stmt} {keyword : String} {name : Token}
    (h : binder? s = some (keyword, name)) (scopes : Scopes) :
    (Node.stmt s).declared? = some name ∧ scopes.declare s = scopes.mark name.lexeme true ∧
      (keyword = "let" ∧ opened scopes s = scopes.mark name.lexeme false ∨
        keyword = "letrec" ∧ opened scopes s = scopes.mark name.lexeme true) := by
  cases s with
  | var _ _ | function _ | classDecl _ _ _ =>
      obtain ⟨rfl, rfl⟩ := Prod.mk.inj (Option.some.inj h)
      simp [Node.declared?, Scopes.declare, opened]
  | _ => cases h

theorem of_binder?_none {s : Stmt} (h : binder? s = none) (scopes : Scopes) :
    (Node.stmt s).declared? = none ∧ scopes.declare s = scopes ∧ opened scopes s = scopes := by
  cases s with
  | var _ _ | function _ | classDecl _ _ _ => cases h
  | _ => exact ⟨rfl, rfl, rfl⟩

theorem ordinary_of_binder? {scopes : Scopes} {s : Stmt} (h : ResolvedStmt r scopes s)
    {keyword : String} {name : Token} (hbinder : binder? s = some (keyword, name)) :
    Ordinary name.lexeme := by
  cases h with
  | var hnew _ | function hnew _ | classDecl hnew _ _ =>
      obtain ⟨-, rfl⟩ := Prod.mk.inj (Option.some.inj hbinder)
      exact hnew.2
  | _ => cases hbinder

/-- In a scope whose parts were entered up to a position, what is bound is what is around
the scope and what these parts have declared. -/
structure Entered (program : List Stmt) (scopes : Scopes) (bound : Bound) (p : Place)
    (position : Nat) : Prop where
  isIn : p.IsIn program
  isScope : p.node.isScope = true
  settled : scopes.Settled
  framed : Framed scopes bound ((p.node, 0) :: p.site)
  follows : Follows bound scopes ((p, position) :: visible p.site)

namespace Entered

variable {scopes : Scopes} {bound : Bound} {p : Place} {position : Nat} {node : Node}

/-- The part that was entered last. -/
theorem placed (h : Entered program scopes bound p (position + 1))
    (hpart : p.node.parts[position]? = some node) :
    Placed program scopes bound (p.part position node) :=
  ⟨h.isIn.inside hpart, h.framed.move position, by
    rw [visible_part_of_isScope h.isScope]
    exact h.follows⟩

/-- A part that declares nothing is entered. -/
theorem skip (h : Entered program scopes bound p position)
    (hpart : p.node.parts[position]? = some node) (hnode : node.declared? = none) :
    Entered program scopes bound p (position + 1) :=
  ⟨h.isIn, h.isScope, h.settled, h.framed, h.follows.skip hpart hnode⟩

variable {name : Token}

/-- A declaration is entered. -/
theorem declare (h : Entered program scopes bound p position)
    (hpart : p.node.parts[position]? = some node) (hnode : node.declared? = some name)
    (hname : Ordinary name.lexeme) :
    Entered program (scopes.mark name.lexeme true)
      ((symbol name, some (p.part position node)) :: bound) p (position + 1) :=
  ⟨h.isIn, h.isScope, h.settled.mark _, (h.framed.mark hname true).bind name _,
    h.follows.declare hpart hnode⟩

/-- The initializer of a variable, which is not bound there. -/
theorem initializer (h : Entered program scopes bound p position)
    (hpart : p.node.parts[position]? = some node) (hnode : node.declared? = some name)
    (hname : Ordinary name.lexeme) :
    Placed program (scopes.mark name.lexeme false) bound (p.part position node) :=
  ⟨h.isIn.inside hpart, (h.framed.mark hname false).move position, by
    rw [visible_part_of_isScope h.isScope]
    exact h.follows.entered hpart hnode⟩

/-- The body of a function.  No parameter is called as the receiver or the superclass. -/
theorem params (hin : p.IsIn program) (hfunction : p.node.isFunction = true)
    {params : List Token} {body : List Node} (hparts : p.node.parts = params.map .param ++ body)
    (hdistinct : (params.map Token.lexeme).Nodup)
    (hparams : ∀ param ∈ params, Ordinary param.lexeme) (hsettled : scopes.Settled)
    (howned : Owned bound) (hfollows : Follows bound scopes (visible p.site))
    (hframed : Framed scopes (("%return", some p) :: bound) ((p.node, 0) :: p.site)) :
    Entered program (paramNames params :: scopes)
      (("%return", some p) :: (paramBound p 0 params ++ bound)) p params.length := by
  have hscope : p.node.isScope = true := by
    cases hnode : p.node <;> rw [hnode] at hfunction <;> first | rfl | cases hfunction
  have hreturn : Binder program ("%return", some p) :=
    .own ("%return", Node.isFunction) (by simp [owners]) hin hfunction
  have hinside : Owned (paramBound p 0 params ++ bound) :=
    howned.append fun name hname => (paramBound_binders hin 0 hparts name hname).isOwn
  refine ⟨hin, hscope, settled_paramNames params scopes, ?_, ?_⟩
  · refine (hframed.congr (hinside.cons hreturn.isOwn) fun entry hentry => ?_).push
      (paramNames_binds fun param hparam => (hparams param hparam).1)
      (paramNames_binds fun param hparam => (hparams param hparam).2)
    rw [List.lookup_cons, List.lookup_cons,
      lookup_variables _ (paramBound_variables p 0 params) hentry]
  · exact (hfollows.params hsettled hparts hdistinct).own
      ("%return", Node.isFunction) (by simp [owners]) (some p)

end Entered

namespace Placed

variable {scopes : Scopes} {bound : Bound} {p : Place}

/-- Most parts of statements are where the statement is. -/
theorem stmt (h : Placed program scopes bound p) {s : Stmt} (hnode : p.node = .stmt s)
    {position : Nat} {node : Node} (hpart : (Node.ofStmt s)[position]? = some node)
    (howner : ∀ entry ∈ owners, entry.2 (.stmt s) = false)
    (hscopes : (Node.stmt s).scopesAt position = 0) :
    Placed program scopes bound (p.part position node) :=
  h.part (by rw [hnode]; exact hpart) (by rw [hnode]; exact howner) (by rw [hnode]; exact hscopes)

/-- The ways out of a loop are bound in its condition and in its body. -/
theorem loop (h : Placed program scopes bound p) {condition : Expr} {body : Stmt}
    (hnode : p.node = .stmt (.whileLoop condition body)) {position : Nat} {node : Node}
    (hpart : (Node.ofStmt (.whileLoop condition body))[position]? = some node) :
    Placed program scopes (("%loop", some p) :: ("%break", some p) :: bound)
      (p.part position node) := by
  refine ⟨h.isIn.inside (by rw [hnode]; exact hpart), h.framed.inLoop hnode position, ?_⟩
  rw [visible_part (by rw [hnode]; rfl)]
  exact (h.follows.own ("%break", Node.isLoop) (by simp [owners]) (some p)).own
    ("%loop", Node.isLoop) (by simp [owners]) (some p)

end Placed

/-- A name that is bound for the place itself. -/
theorem faithful_own {bound : Bound} {p : Place} (entry : String × (Node → Bool))
    (hentry : entry ∈ owners) (hin : p.IsIn program) (hnode : entry.2 p.node = true)
    (hbound : bound.lookup entry.1 = some (some p)) :
    Faithful r program bound (mention p entry.1) := by
  have huse : ∀ occurrence, p.node ≠ .expr (.use occurrence) := fun occurrence heq => by
    rw [heq, not_owner rfl rfl rfl entry hentry] at hnode
    cases hnode
  exact .symbol (.own entry hentry hin huse (enclosing?_self hnode) hbound)

theorem faithful_expr? {scopes : Scopes} {bound : Bound} {p : Place} {s : Stmt} {e : Option Expr}
    (h : Placed program scopes bound p) (hnode : p.node = .stmt s)
    (hparts : Node.ofStmt s = e.toList.map .expr)
    (howner : ∀ entry ∈ owners, entry.2 (.stmt s) = false)
    (hscopes : (Node.stmt s).scopesAt 0 = 0) (hworded : ∀ e' ∈ e, e'.Worded vocabulary)
    (hresolved : ∀ e' ∈ e, ResolvedExpr r scopes e') :
    Faithful r program bound (exprDatum? p e) := by
  cases e with
  | none => exact .word (not_isOwn_of_mem _ (by decide))
  | some e =>
      exact faithful_expr (h.stmt hnode (by rw [hparts]; rfl) howner hscopes)
        (hworded e rfl) (hresolved e rfl) rfl

/-- The scopes of the receiver and of the superclass are entered, which declare no
variables. -/
theorem Follows.methods {scopes : Scopes} {bound : Bound} {p : Place} {name : Token}
    {superclass : Option Occurrence} {all : List FunctionDecl} {position : Nat}
    (h : Follows bound scopes (visible p.site)) (hsettled : scopes.Settled)
    (hnode : p.node = .stmt (.classDecl name superclass all))
    (hposition : superclass.toList.length ≤ position) (node : Node) :
    Follows bound (thisNames :: methodScopes scopes superclass)
        (visible (p.part position node).site) ∧
      Scopes.Settled (thisNames :: methodScopes scopes superclass) := by
  have hthis : ∀ name, Ordinary name → thisNames.binds name = false := fun name hname => by
    simp [thisNames, Bindings.binds, Bindings.get?, hname.1.symm]
  have hsuper : ∀ name, Ordinary name → superNames.binds name = false := fun name hname => by
    simp [superNames, Bindings.binds, Bindings.get?, hname.2.symm]
  have hsettled' : ∀ (name : String) (outer : Scopes), Scopes.Settled ([(name, true)] :: outer) :=
    fun name outer other => by
      by_cases heq : name = other <;> simp [Scopes.isInitializing, Bindings.get?, heq]
  have hvisible : visible (p.part position node).site
      = List.replicate (1 + superclass.toList.length) (p, position + 1) ++ visible p.site := by
    rw [part, visible, hnode, Node.scopesAt, if_pos hposition, ← hnode]
  rw [hvisible]
  refine ⟨?_, hsettled' _ _⟩
  cases superclass with
  | none => exact h.push hsettled hthis _
  | some occurrence => exact (h.push hsettled hsuper _).push (hsettled' _ _) hthis _

/-- Nothing in a program is an offence. -/
def Sound (program : List Stmt) : Prop :=
  ∀ p : Place, p.IsIn program → ∀ token cause, ¬Offence p token cause

/-- A `return` has a function around it. -/
theorem function_of_return (hsound : Sound program) {p : Place} (hin : p.IsIn program) {keyword : Token}
    {value : Option Expr} (hnode : p.node = .stmt (.returnWith keyword value)) :
    (enclosing?.around? Node.isFunction p.site).isSome := by
  by_contra hnone
  rw [around?_isSome, Option.not_isSome_iff_eq_none] at hnone
  exact hsound p hin _ _ (.returnOutsideFunction hnode hnone)

/-- A `break` has a loop around it. -/
theorem loop_of_break (hsound : Sound program) {p : Place} (hin : p.IsIn program) {keyword : Token}
    (hnode : p.node = .stmt (.breakLoop keyword)) :
    (enclosing?.around? Node.isLoop p.site).isSome := by
  cases hloop : p.inLoop with
  | false => exact absurd (.breakOutsideLoop hnode hloop) (hsound p hin _ _)
  | true =>
      obtain ⟨node, hmem, hnode⟩ := List.any_eq_true.mp hloop
      rw [around?_isSome, List.find?_isSome]
      exact ⟨node, (List.takeWhile_sublist _).subset hmem, hnode⟩

mutual

theorem faithful_stmt (hsound : Sound program) {scopes : Scopes} {bound : Bound} {p : Place}
    (hsettled : scopes.Settled) : ∀ {s : Stmt}, Placed program (opened scopes s) bound p →
    s.Worded vocabulary → ResolvedStmt r scopes s → p.node = .stmt s →
    Faithful r program bound (stmtDatum p s)
  | .expression value, h, hworded, hresolved, hnode => by
      cases hworded with
      | expression hworded =>
          cases hresolved with
          | expression hresolved =>
              exact faithful_expr (h.stmt hnode rfl (not_owner rfl rfl rfl) rfl) hworded hresolved rfl
  | .print _ value, h, hworded, hresolved, hnode => by
      cases hworded with
      | print _ hworded =>
          cases hresolved with
          | print hresolved =>
              refine .applied (by decide) (List.forall_mem_singleton.mpr ?_)
              exact faithful_expr (h.stmt hnode rfl (not_owner rfl rfl rfl) rfl) hworded hresolved rfl
  | .var name initializer, h, hworded, hresolved, hnode => by
      cases hworded with
      | var _ hworded =>
          cases hresolved with
          | var _ hresolved =>
              exact faithful_expr? h hnode rfl (not_owner rfl rfl rfl) rfl hworded hresolved
  | .block body, h, hworded, hresolved, hnode => by
      cases hworded with
      | block hworded =>
          cases hresolved with
          | block hresolved =>
              have hentered : Entered program ([] :: scopes) bound p 0 :=
                ⟨h.isIn, by rw [hnode]; rfl, Scopes.settled_push scopes,
                  (h.framed.part (by rw [hnode]; exact not_owner rfl rfl rfl) 0).push rfl rfl,
                  h.follows.push hsettled (fun _ _ => rfl) (p, 0)⟩
              refine .bindings [] h.framed.owned rfl
                (fun _ hname => absurd hname List.not_mem_nil)
                (fun _ hpair => absurd hpair List.not_mem_nil) ?_
              exact faithful_row hsound hentered body.isEmpty hworded hresolved (by rw [hnode]; rfl)
  | .ifElse condition onTrue onFalse, h, hworded, hresolved, hnode => by
      cases hworded with
      | ifElse hwcondition hwTrue hnested hwFalse hnested' =>
          cases hresolved with
          | ifElse hcondition hTrue _ hFalse _ =>
              have hpart : ∀ position {node},
                  (Node.ofStmt (.ifElse condition onTrue onFalse))[position]? = some node →
                  Placed program scopes bound (p.part position node) := fun _ _ hpart =>
                h.stmt hnode hpart (not_owner rfl rfl rfl) rfl
              have hopened : ∀ {s : Stmt}, s.isDeclaration = false → opened scopes s = scopes :=
                fun hs => (of_binder?_none (binder?_of_nested hs) scopes).2.2
              have hcondition := faithful_expr (hpart 0 rfl) hwcondition hcondition rfl
              have hchosen := faithful_stmt hsound (s := onTrue) hsettled
                (by rw [hopened hnested]; exact hpart 1 rfl) hwTrue hTrue rfl
              cases onFalse with
              | none =>
                  exact .applied (by decide) (List.forall_mem_cons.mpr ⟨hcondition,
                    List.forall_mem_cons.mpr ⟨hchosen, List.forall_mem_singleton.mpr
                      (.word (not_isOwn_of_mem _ (by decide)))⟩⟩)
              | some other =>
                  have hother := faithful_stmt hsound (s := other) hsettled
                    (by rw [hopened (hnested' other rfl)]; exact hpart 2 rfl) (hwFalse other rfl)
                    (hFalse other rfl) rfl
                  exact .applied (by decide) (List.forall_mem_cons.mpr ⟨hcondition,
                    List.forall_mem_cons.mpr ⟨hchosen, List.forall_mem_singleton.mpr hother⟩⟩)
  | .whileLoop condition body, h, hworded, hresolved, hnode => by
      cases hworded with
      | whileLoop hwcondition hwbody hnested =>
          cases hresolved with
          | whileLoop hcondition hbody _ =>
              let inside : Bound := ("%loop", some p) :: ("%break", some p) :: bound
              have hopened := (of_binder?_none (binder?_of_nested hnested) scopes).2.2
              have hcondition : Faithful r program inside
                  (exprDatum (p.part 0 (.expr condition)) condition) :=
                faithful_expr (h.loop hnode rfl) hwcondition hcondition rfl
              have hbody : Faithful r program inside (stmtDatum (p.part 1 (.stmt body)) body) :=
                faithful_stmt hsound hsettled (by rw [hopened]; exact h.loop hnode rfl) hwbody hbody rfl
              have hloop : Faithful r program inside (mention p "%loop") :=
                faithful_own ("%loop", Node.isLoop) (by simp [owners]) h.isIn (by rw [hnode]; rfl) rfl
              have hagain : Faithful r program inside (.list [mention p "%loop"]) :=
                .list hloop (by decide) (fun _ hd => absurd hd List.not_mem_nil)
              have hbreak : Binder program ("%break", some p) :=
                .own ("%break", Node.isLoop) (by simp [owners]) h.isIn (by rw [hnode]; rfl)
              have hrepeat : Binder program ("%loop", some p) :=
                .own ("%loop", Node.isLoop) (by simp [owners]) h.isIn (by rw [hnode]; rfl)
              refine .applied (by decide) (List.forall_mem_singleton.mpr (.procedure
                [("%break", some p)] h.framed.owned rfl
                (List.forall_mem_singleton.mpr hbreak)
                (List.forall_mem_singleton.mpr (.loop (h.framed.owned.cons hbreak.isOwn) hrepeat
                  (List.forall_mem_singleton.mpr (.applied (by decide)
                    (List.forall_mem_cons.mpr ⟨hcondition, List.forall_mem_singleton.mpr ?_⟩)))))))
              exact .applied (by decide) (List.forall_mem_cons.mpr ⟨hbody,
                List.forall_mem_singleton.mpr hagain⟩)
  | .breakLoop keyword, h, _, _, hnode => by
      have hbreak := h.own (r := r) ("%break", Node.isLoop) (by simp [owners]) (by rw [hnode]; rfl)
        (by simp [hnode]) (loop_of_break hsound h.isIn hnode)
      exact .list hbreak (by decide)
        (List.forall_mem_singleton.mpr (.word (not_isOwn_of_mem _ (by decide))))
  | .returnWith keyword value, h, hworded, hresolved, hnode => by
      cases hworded with
      | returnWith _ hworded =>
          cases hresolved with
          | returnWith hresolved =>
              have hreturn := h.own (r := r) ("%return", Node.isFunction) (by simp [owners])
                (by rw [hnode]; rfl) (by simp [hnode]) (function_of_return hsound h.isIn hnode)
              exact .list hreturn (by decide) (List.forall_mem_singleton.mpr
                (faithful_expr? h hnode rfl (not_owner rfl rfl rfl) rfl hworded hresolved))
  | .function declaration, h, hworded, hresolved, hnode => by
      cases hworded with
      | function hworded =>
          cases hresolved with
          | function _ hresolved =>
              have hfunction : Placed program (scopes.mark declaration.name.lexeme true) bound
                  (p.part 0 (.function declaration)) :=
                h.stmt hnode rfl (not_owner rfl rfl rfl) rfl
              exact faithful_function hsound hfunction.isIn (hsettled.mark _)
                (hfunction.framed.inFunction rfl 0) h.framed.owned hfunction.follows hworded
                hresolved (Or.inl rfl) (fun heq => nomatch heq)
  | .classDecl name superclass methods, h, hworded, hresolved, hnode => by
      cases hworded with
      | classDecl _ _ hworded =>
          cases hresolved with
          | classDecl _ habove hresolved =>
              have habove' : Faithful r program bound (aboveDatum p superclass) := by
                cases superclass with
                | none => exact .word (not_isOwn_of_mem _ (by decide))
                | some occurrence =>
                    have hpart : p.node.parts[0]? = some (.expr (.use occurrence)) := by
                      rw [hnode]
                      rfl
                    refine faithful_use (h.isIn.inside hpart) ?_ rfl (habove occurrence rfl)
                    rw [visible_part (by rw [hnode]; rfl)]
                    exact h.follows
              have hsuper : Binder program ("%super", some p) :=
                .own ("%super", Node.isClass) (by simp [owners]) h.isIn (by rw [hnode]; rfl)
              have hmethods := faithful_methods hsound h.isIn hnode (hsettled.mark name.lexeme)
                (h.framed.inClass hnode 0)
                (h.follows.own ("%super", Node.isClass) (by simp [owners]) (some p))
                superclass.toList.length (Nat.le_refl _) hworded hresolved
                (by rw [Node.ofStmt]; cases superclass <;> rfl)
              refine .bindings [(("%super", some p), _)] h.framed.owned rfl
                (List.forall_mem_singleton.mpr hsuper)
                (List.forall_mem_singleton.mpr habove') (List.forall_mem_singleton.mpr ?_)
              refine .applied (by decide) (List.forall_mem_cons.mpr ⟨.string _,
                List.forall_mem_cons.mpr ⟨?_,
                  List.forall_mem_singleton.mpr (.applied (by decide) hmethods)⟩⟩)
              exact faithful_own ("%super", Node.isClass) (by simp [owners]) h.isIn
                (by rw [hnode]; rfl) rfl

theorem faithful_row (hsound : Sound program) {p : Place} :
    ∀ {body : List Stmt} {scopes : Scopes} {bound : Bound} {position : Nat},
    Entered program scopes bound p position → (inside : Bool) →
    (∀ s ∈ body, s.Worded vocabulary) → ResolvedStmts r scopes body →
    p.node.parts.drop position = body.map .stmt →
    ∀ d ∈ rowData p inside position body, Faithful r program bound d
  | [], _, _, _, _, inside, _, _, _ => by
      cases inside with
      | false => exact fun _ hd => absurd hd List.not_mem_nil
      | true => exact List.forall_mem_singleton.mpr (.word (not_isOwn_of_mem _ (by decide)))
  | s :: rest, scopes, bound, position, h, inside, hworded, hresolved, hparts => by
      obtain ⟨hpart, hparts⟩ := getElem?_of_drop hparts
      rw [List.forall_mem_cons] at hworded
      cases hresolved with
      | cons hfirst hrest =>
          rw [rowData]
          cases hbinder : binder? s with
          | none =>
              obtain ⟨hdeclared, hdeclare, hopened⟩ := of_binder?_none hbinder scopes
              have hskipped := h.skip hpart hdeclared
              rw [hdeclare] at hrest
              exact List.forall_mem_cons.mpr
                ⟨faithful_stmt hsound h.settled (by rw [hopened]; exact hskipped.placed hpart) hworded.1
                  hfirst rfl, faithful_row hsound hskipped inside hworded.2 hrest hparts⟩
          | some binder =>
              obtain ⟨keyword, name⟩ := binder
              obtain ⟨hdeclared, hdeclare, hkeyword⟩ := binder?_cases hbinder scopes
              have hname := ordinary_of_binder? hfirst hbinder
              have hentered := h.declare hpart hdeclared hname
              have hbound : Binder program (symbol name, some (p.part position (.stmt s))) :=
                .declaration (h.isIn.inside hpart) hdeclared
              rw [hdeclare] at hrest
              have hbehind := faithful_row hsound hentered true hworded.2 hrest hparts
              refine List.forall_mem_singleton.mpr ?_
              rcases hkeyword with ⟨rfl, hopened⟩ | ⟨rfl, hopened⟩
              · have hvalue := faithful_stmt hsound h.settled
                  (by rw [hopened]; exact h.initializer hpart hdeclared hname) hworded.1 hfirst rfl
                exact .bindings [((symbol name, some (p.part position (.stmt s))), _)]
                  h.framed.owned rfl (List.forall_mem_singleton.mpr hbound)
                  (List.forall_mem_singleton.mpr hvalue) hbehind
              · have hvalue := faithful_stmt hsound h.settled
                  (by rw [hopened]; exact hentered.placed hpart) hworded.1 hfirst rfl
                exact .recursive h.framed.owned hbound
                  (List.forall_mem_cons.mpr ⟨hvalue, hbehind⟩)

theorem faithful_function (hsound : Sound program) {scopes : Scopes} {bound : Bound} {p : Place} :
    ∀ {f : FunctionDecl} {isInitializer : Bool}, p.IsIn program → scopes.Settled →
    Framed scopes (("%return", some p) :: bound) ((p.node, 0) :: p.site) → Owned bound →
    Follows bound scopes (visible p.site) → f.Worded vocabulary → ResolvedFunction r scopes f →
    p.node = .function f ∨ p.node = .method f → (isInitializer = true → p.node = .method f) →
    Faithful r program bound (functionDatum p isInitializer f)
  | ⟨name, params, body⟩, isInitializer, hin, hsettled, hframed, howned, hfollows, hworded,
      hresolved, hnode, hinitializer => by
      have hparts : p.node.parts = params.map .param ++ body.map .stmt := by
        rcases hnode with hnode | hnode <;> rw [hnode] <;> rfl
      cases hworded with
      | mk _ _ hworded =>
          cases hresolved with
          | mk hdistinct hparams hresolved =>
              let inside : Bound := paramBound p 0 params ++ bound
              have hfunction : p.node.isFunction = true := by
                rcases hnode with hnode | hnode <;> rw [hnode] <;> rfl
              have hnames := paramBound_binders hin 0 hparts
              have hinside : Owned inside := howned.append fun name hname => (hnames name hname).isOwn
              have hreturn : Binder program ("%return", some p) :=
                .own ("%return", Node.isFunction) (by simp [owners]) hin hfunction
              have hentered : Entered program (paramNames params :: scopes)
                  (("%return", some p) :: inside) p params.length :=
                .params hin hfunction hparts hdistinct hparams hsettled howned hfollows hframed
              have hrow := faithful_row hsound hentered body.isEmpty hworded hresolved
                (by rw [hparts]; simp)
              let escape : Marked := applied "call/cc"
                [procedure [mention p "%return"] (rowData p body.isEmpty params.length body)]
              have hescape : Faithful r program inside escape :=
                .applied (by decide) (List.forall_mem_singleton.mpr (.procedure
                  [("%return", some p)] hinside rfl
                  (List.forall_mem_singleton.mpr hreturn) hrow))
              have hbody : Faithful r program inside
                  (if isInitializer then applied "begin" [escape, mention p "this"] else escape) := by
                cases isInitializer with
                | false => exact hescape
                | true =>
                    have hmethod : p.node.isMethod = true := by
                      rw [hinitializer rfl]
                      rfl
                    have hthis : inside.lookup "this" = some (some p) := by
                      have hown := hentered.framed.own ("this", Node.isMethod) (by simp [owners])
                      rw [enclosing?.around?, if_pos hmethod] at hown
                      exact hown
                    exact .applied (by decide) (List.forall_mem_cons.mpr ⟨hescape,
                      List.forall_mem_singleton.mpr
                        (faithful_own ("this", Node.isMethod) (by simp [owners]) hin hmethod hthis)⟩)
              exact .applied (by decide) (List.forall_mem_cons.mpr ⟨.string _,
                List.forall_mem_singleton.mpr (.procedure _ howned (paramData_names p 0 params) hnames
                  (List.forall_mem_singleton.mpr hbody))⟩)

theorem faithful_methods (hsound : Sound program) {scopes : Scopes} {bound : Bound} {p : Place}
    {name : Token} {superclass : Option Occurrence} {all : List FunctionDecl} (hin : p.IsIn program)
    (hnode : p.node = .stmt (.classDecl name superclass all)) (hsettled : scopes.Settled)
    (hframed : Framed scopes bound ((p.node, 0) :: p.site))
    (hfollows : Follows bound scopes (visible p.site)) :
    ∀ {methods : List FunctionDecl} (position : Nat), superclass.toList.length ≤ position →
    (∀ f ∈ methods, f.Worded vocabulary) →
    (∀ f ∈ methods, ResolvedFunction r (thisNames :: methodScopes scopes superclass) f) →
    (Node.ofStmt (.classDecl name superclass all)).drop position = methods.map .method →
    ∀ d ∈ methodData p position methods, Faithful r program bound d
  | [], _, _, _, _, _ => fun _ hd => absurd hd List.not_mem_nil
  | method :: rest, position, hposition, hworded, hresolved, hparts => by
      obtain ⟨hpart, hparts⟩ := getElem?_of_drop hparts
      rw [List.forall_mem_cons] at hworded hresolved
      refine List.forall_mem_cons.mpr ⟨?_, faithful_methods hsound hin hnode hsettled hframed hfollows
        (position + 1) (Nat.le_succ_of_le hposition) hworded.2 hresolved.2 hparts⟩
      let q := p.part position (.method method)
      have hq : q.IsIn program := hin.inside (by rw [hnode]; exact hpart)
      have hclass : (enclosing?.around? Node.isClass q.site).isSome := by
        rw [show q.site = (p.node, position) :: p.site from rfl, enclosing?.around?, hnode]
        rfl
      have hthis : Binder program ("this", some q) :=
        .own ("this", Node.isMethod) (by simp [owners]) hq rfl
      obtain ⟨hinside, hinner⟩ := hfollows.methods hsettled hnode hposition (.method method)
      have hbody : Framed (thisNames :: methodScopes scopes superclass)
          (("%return", some q) :: ("this", some q) :: bound) ((q.node, 0) :: q.site) :=
        (hframed.move position).inMethod (p := q) rfl hclass _ 0
      have hmethod : Faithful r program (("this", some q) :: bound)
          (functionDatum q (method.name.lexeme = initializerName) method) :=
        faithful_function hsound hq hinner hbody (hframed.owned.cons hthis.isOwn)
          (hinside.own ("this", Node.isMethod) (by simp [owners]) (some q)) hworded.1 hresolved.1
          (Or.inr rfl) (fun _ => rfl)
      refine .applied (by decide) (List.forall_mem_cons.mpr ⟨.quoted _,
        List.forall_mem_singleton.mpr (.procedure [("this", some q)] hframed.owned rfl
          (List.forall_mem_singleton.mpr hthis)
          (List.forall_mem_singleton.mpr hmethod))⟩)

end

/-! ### Programs -/

/-- The statements of a program are bound by nothing, and so are the globals. -/
theorem faithful_top (hsound : Sound program) : ∀ {body : List Stmt} (position : Nat),
    (∀ s ∈ body, s.Worded vocabulary) → ResolvedStmts r [] body →
    (whole program).node.parts.drop position = body.map .stmt →
    ∀ d ∈ topData (.whole program) position body, Faithful r program [] d
  | [], _, _, _, _ => fun _ hd => absurd hd List.not_mem_nil
  | s :: rest, position, hworded, hresolved, hparts => by
      obtain ⟨hpart, hparts⟩ := getElem?_of_drop hparts
      rw [List.forall_mem_cons] at hworded
      cases hresolved with
      | cons hfirst hrest =>
          have hnone : Scopes.declare [] s = [] ∧ opened [] s = [] := by
            cases s <;> exact ⟨rfl, rfl⟩
          rw [hnone.1] at hrest
          refine List.forall_mem_cons.mpr
            ⟨?_, faithful_top hsound (position + 1) hworded.2 hrest hparts⟩
          have hin : ((whole program).part position (.stmt s)).IsIn program := .inside .self hpart
          have hplaced : Placed program (opened [] s) [] ((whole program).part position (.stmt s)) := by
            rw [hnone.2]
            exact ⟨hin, Framed.topLevel.part (not_owner rfl rfl rfl) position, Follows.topLevel⟩
          have hvalue := faithful_stmt hsound Scopes.settled_nil hplaced hworded.1 hfirst rfl
          rw [topDatum]
          cases hbinder : binder? s with
          | none => exact hvalue
          | some binder =>
              obtain ⟨keyword, name⟩ := binder
              obtain ⟨hdeclared, -, -⟩ := binder?_cases hbinder []
              exact .definition (fun _ hmem => absurd hmem List.not_mem_nil)
                (.declaration hin hdeclared) hvalue

/-- In a program that the analysis has accepted nothing is an offence. -/
theorem sound_of_accepted {v : Vocabulary} (h : ∀ s ∈ program, s.Worded v)
    (hfaults : (analyse program).faults = []) : Sound program := by
  obtain ⟨reports, -, hmem, hreports⟩ := analyse_reported h
  rw [hfaults] at hreports
  intro p hp token cause hoffence
  have hreport : (⟨p, token, cause⟩ : Report) ∈ reports := (hmem _).mpr ⟨hp, hoffence⟩
  rw [List.map_eq_nil_iff.mp hreports.symm] at hreport
  cases hreport

/-- **What symbols are bound to is what names mean.**  Of an accepted program, what is
written behind the prelude is read as data in which, wherever they are evaluated,

- the mention of a variable that has a distance is bound for the declaration that the
  distance denotes, and one that has none is free;
- `this`, `%super`, `%return`, `%break` and `%loop` are bound for the innermost method,
  class, function and loop around what they were written for;
- Scheme's own words and the names of the prelude are free, and are bound nowhere: each
  name that a form binds is that of a declaration or one of those five. -/
theorem binding_survives {session after : Session} {source : String} {found : List (Nat × Nat)}
    (h : session.Accepts source program found after) :
    (∃ text, Scheme.program program = prelude ++ text ∧
      read text = some ((programData program).map Datum.plain)) ∧
    ∀ datum ∈ programData program,
      (∀ bound text p, Evaluated [] datum bound (.symbol text (some p)) → p.IsIn program ∧
        (∀ occurrence, p.node = .expr (.use occurrence) → text = symbol occurrence.name ∧
          (∀ distance, (occurrence.id, distance) ∈ found → ∃ declaration,
            p.Denotes distance occurrence.name.lexeme declaration ∧
              bound.lookup text = some (some declaration)) ∧
          (occurrence.id ∉ found.map Prod.fst → bound.lookup text = none)) ∧
        ∀ entry ∈ owners, text = entry.1 → ∃ owner,
          p.enclosing? entry.2 = some owner ∧ bound.lookup text = some (some owner)) ∧
      (∀ bound text, Evaluated [] datum bound (.symbol text none) →
        ¬IsOwn text ∧ bound.lookup text = none) ∧
      ∀ bound items form, Evaluated [] datum bound (.list items) → formOf bound items = some form →
        ∀ name ∈ form.names, Binder program name ∧ IsOwn name.1 := by
  obtain ⟨hparse, hfaults, rfl⟩ := h.read
  have hworded : ∀ s ∈ program, s.Worded vocabulary :=
    (Session.parse_ok hparse).2.worded (allows_ofSource source)
  have hresolved := h.resolvedBy ∅ fun _ _ => Std.TreeMap.getElem?_emptyc
  have hfaithful := faithful_top (sound_of_accepted hworded hfaults) 0 hworded hresolved rfl
  refine ⟨⟨topTexts program, program_eq hworded, read_topTexts hworded⟩, fun datum hdatum =>
    ⟨fun bound text p hevaluated => ?_, fun bound text hevaluated => ?_,
      fun bound items form hevaluated hform name hname => ?_⟩⟩
  · have hlisted : ∀ {id distance}, (id, distance) ∈ (analyse program).locals →
        (Locals.extend ∅ (analyse program).locals)[id]? = some distance :=
      fun hmem => Locals.getElem?_extend_of_mem h.nodup hmem ∅
    have hmissing : ∀ {id}, id ∉ (analyse program).locals.map Prod.fst →
        (Locals.extend ∅ (analyse program).locals)[id]? = none := fun hnot =>
      (Locals.getElem?_extend_of_not_mem hnot ∅).trans Std.TreeMap.getElem?_emptyc
    cases (hfaithful datum hdatum).meant hevaluated with
    | @use _ occurrence hin hnode hlocal hglobal =>
        refine ⟨hin, fun other hother => ?_, fun entry hentry htext =>
          absurd htext.symm (symbol_ne hentry occurrence.name.lexeme)⟩
        obtain rfl : occurrence = other := by
          rw [hnode] at hother
          simpa using hother
        exact ⟨rfl, fun distance hmem => hlocal distance (hlisted hmem),
          fun hnot => hglobal (hmissing hnot)⟩
    | @target _ target _ hin hnode =>
        refine ⟨hin, fun other hother => ?_, fun entry hentry htext =>
          absurd htext.symm (symbol_ne hentry target.name.lexeme)⟩
        rw [hnode] at hother
        cases hother
    | @own _ owner entry hentry hin hnode howner hbound =>
        refine ⟨hin, fun other hother => absurd hother (hnode other),
          fun entry' hentry' htext => ?_⟩
        have hdistinct : (owners.map Prod.fst).Nodup := by decide
        obtain rfl := List.inj_on_of_nodup_map hdistinct hentry hentry' htext
        exact ⟨owner, howner, hbound⟩
  · have hmeant := (hfaithful datum hdatum).meant hevaluated
    have howned := (hfaithful datum hdatum).owned (fun _ hmem => absurd hmem List.not_mem_nil)
      hevaluated
    cases hmeant with
    | word hword => exact ⟨hword, lookup_eq_none howned hword⟩
  · have hbinder := (hfaithful datum hdatum).binds hevaluated hform name hname
    exact ⟨hbinder, hbinder.isOwn⟩

/-- In a block that declares a variable and prints it, what is printed is bound for the
declaration. -/
theorem printed_variable_bound : ∃ program found after,
    Session.new.Accepts "\x7bvar a; print a;\x7d" program found after ∧
    ∃ datum ∈ programData program, ∃ bound p declaration,
      Evaluated [] datum bound (.symbol "lox:a" (some p)) ∧ p.Denotes 0 "a" declaration ∧
        bound.lookup "lox:a" = some (some declaration) := by
  let name : Token := ⟨.identifier, "a", 1⟩
  let use : Stmt := .print ⟨.kwPrint, "print", 1⟩ (.use ⟨name, 1⟩)
  let block : Stmt := .block [.var name none, use]
  have h : Session.new.Accepts "\x7bvar a; print a;\x7d" [block] [(1, 0)]
      { Session.new with lastId := 1 } := by
    unfold Session.Accepts Session.analyse Session.parse
    cbv
  let q := (whole [block]).part 0 (.stmt block)
  let p := (q.part 1 (.stmt use)).part 0 (.expr (.use ⟨name, 1⟩))
  let bound : Bound := [("lox:a", some (q.part 0 (.stmt (.var name none))))]
  let printed := applied "lox-print" [mention p "lox:a"]
  let inner := Datum.list [word "let",
    .list [.list [mention (q.part 0 (.stmt (.var name none))) "lox:a", word nil]], printed, word nil]
  have hblock : ([], inner) ∈ parts [] (topDatum q block) := List.mem_singleton.mpr rfl
  have hinner : (bound, printed) ∈ parts [] inner :=
    List.mem_cons_of_mem _ List.mem_cons_self
  have hprinted : (bound, mention p "lox:a") ∈ parts bound printed :=
    List.mem_cons_of_mem _ List.mem_cons_self
  have hevaluated : Evaluated [] (topDatum q block) bound (.symbol "lox:a" (some p)) :=
    .part (.part (.part .self hblock) hinner) hprinted
  have hdatum : topDatum q block ∈ programData [block] := List.mem_cons_self
  obtain ⟨-, huse, -⟩ := ((binding_survives h).2 _ hdatum).1 bound "lox:a" p hevaluated
  obtain ⟨declaration, hdenotes, hbound⟩ := (huse ⟨name, 1⟩ rfl).2.1 0 (by simp)
  exact ⟨[block], [(1, 0)], _, h, _, hdatum, bound, p, declaration, hevaluated, hdenotes, hbound⟩

end Lox.Scheme
