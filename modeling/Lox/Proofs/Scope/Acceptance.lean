/-
What the analysis accepts is resolved.

The analysis lists the distances it found by the numbers of the occurrences.  Numbers of
different occurrences differ, so whoever looks a number up in the whole list sees what
was found at that one occurrence: its distance, or nothing if its name is a global.
-/
import Lox.Proofs.Scope.Resolved

namespace Lox.Scope

/-! ### What the analysis lists -/

theorem faultIf_locals (condition : Bool) (token : Token) (cause : Fault.Cause) :
    (Findings.faultIf condition token cause).locals = [] := by
  cases condition <;> rfl

theorem faultIf_faults {condition : Bool} {token : Token} {cause : Fault.Cause} :
    (Findings.faultIf condition token cause).faults = [] ↔ condition = false := by
  cases condition <;> simp [Findings.faultIf, Findings.nothing]

theorem local?_faults (scopes : Scopes) (name : String) (id : Nat) :
    (Findings.local? scopes name id).faults = [] := by
  unfold Findings.local?
  split <;> rfl

theorem redeclared_locals (scopes : Scopes) (name : Token) :
    (redeclared scopes name).locals = [] :=
  faultIf_locals _ _ _

theorem redeclared_faults {scopes : Scopes} {name : Token} :
    (redeclared scopes name).faults = [] ↔ scopes.declaresInnermost name.lexeme = false :=
  faultIf_faults

theorem ofParams_locals (params : List Token) (scopes : Scopes) :
    (ofParams scopes params).2.locals = [] := by
  induction params generalizing scopes with
  | nil => rfl
  | cons param rest ih =>
      rw [ofParams]
      simp [redeclared_locals, ih]

/-- The numbers that the analysis lists are numbers of occurrences, each listed once. -/
def Listed (found : Findings) (ids : List Nat) : Prop :=
  (found.locals.map Prod.fst).Sublist ids

theorem listed_nothing (ids : List Nat) : Listed Findings.nothing ids :=
  List.nil_sublist ids

theorem Listed.append {a b : Findings} {before behind : List Nat} (ha : Listed a before)
    (hb : Listed b behind) : Listed (a ++ b) (before ++ behind) := by
  simpa [Listed] using List.Sublist.append ha hb

theorem Listed.of_locals {a b : Findings} {ids : List Nat} (h : Listed a ids)
    (heq : b.locals = a.locals) : Listed b ids := by
  rwa [Listed, heq]

/-- Findings without occurrences add nothing to the list. -/
theorem Listed.behind {a b : Findings} {ids : List Nat} (ha : a.locals = []) (hb : Listed b ids) :
    Listed (a ++ b) ids :=
  hb.of_locals (by simp [ha])

theorem local?_listed (scopes : Scopes) (name : String) (id : Nat) :
    Listed (Findings.local? scopes name id) [id] := by
  unfold Findings.local?
  split
  · exact List.Sublist.refl _
  · exact List.nil_sublist _

mutual

theorem ofExpr_listed (context : Context) (scopes : Scopes) :
    ∀ e : Expr, Listed (ofExpr context scopes e) e.ids
  | .literal _ => listed_nothing _
  | .group inner => ofExpr_listed context scopes inner
  | .unary _ operand => ofExpr_listed context scopes operand
  | .binary _ left right | .logical _ left right =>
      (ofExpr_listed context scopes left).append (ofExpr_listed context scopes right)
  | .conditional condition onTrue onFalse => by
      rw [ofExpr, Expr.ids, ← List.append_assoc]
      exact ((ofExpr_listed context scopes condition).append
        (ofExpr_listed context scopes onTrue)).append (ofExpr_listed context scopes onFalse)
  | .use _ => (local?_listed scopes _ _).behind (faultIf_locals _ _ _)
  | .assign _ value => (ofExpr_listed context scopes value).append (local?_listed scopes _ _)
  | .call callee _ arguments =>
      (ofExpr_listed context scopes callee).append (ofExprs_listed context scopes arguments)
  | .get object _ => ofExpr_listed context scopes object
  | .set object _ value =>
      (ofExpr_listed context scopes value).append (ofExpr_listed context scopes object)
  | .this _ => by
      rw [ofExpr]
      split
      · exact (listed_nothing _).of_locals (faultIf_locals _ _ _)
      · exact local?_listed scopes _ _
  | .super _ _ => (local?_listed scopes _ _).behind (by simp [faultIf_locals])

theorem ofExprs_listed (context : Context) (scopes : Scopes) :
    ∀ es : List Expr, Listed (ofExprs context scopes es) (Expr.idsAll es)
  | [] => listed_nothing _
  | e :: rest => (ofExpr_listed context scopes e).append (ofExprs_listed context scopes rest)

end

theorem ofSuperclass_listed (context : Context) (scopes : Scopes) (name : Token)
    (superclass : Option Occurrence) :
    Listed (ofSuperclass context scopes name superclass)
      (superclass.map Occurrence.id).toList := by
  cases superclass with
  | none => exact listed_nothing _
  | some occurrence =>
      exact (ofExpr_listed context scopes (.use occurrence)).behind (faultIf_locals _ _ _)

mutual

theorem ofStmt_listed (context : Context) (scopes : Scopes) :
    ∀ s : Stmt, Listed (ofStmt context scopes s).2 s.ids
  | .expression value | .print _ value => ofExpr_listed context scopes value
  | .var _ none => (listed_nothing _).of_locals (redeclared_locals _ _)
  | .var name (some value) =>
      (ofExpr_listed context _ value).behind (redeclared_locals scopes name)
  | .block body => ofStmts_listed context _ body
  | .ifElse condition onTrue none =>
      (ofExpr_listed context scopes condition).append (ofStmt_listed context scopes onTrue)
  | .ifElse condition onTrue (some onFalse) => by
      rw [Stmt.ids, ← List.append_assoc]
      exact ((ofExpr_listed context scopes condition).append
        (ofStmt_listed context scopes onTrue)).append (ofStmt_listed context _ onFalse)
  | .whileLoop condition body =>
      (ofExpr_listed context scopes condition).append (ofStmt_listed _ scopes body)
  | .breakLoop _ => (listed_nothing _).of_locals (faultIf_locals _ _ _)
  | .returnWith _ none => (listed_nothing _).of_locals (faultIf_locals _ _ _)
  | .returnWith _ (some value) =>
      (ofExpr_listed context scopes value).behind (by simp [faultIf_locals])
  | .function declaration =>
      (ofFunction_listed _ _ declaration).behind (redeclared_locals scopes declaration.name)
  | .classDecl name superclass methods => by
      have habove := ofSuperclass_listed
        { context with classKind := if superclass.isSome then ClassKind.derived else .plain }
        (scopes.mark name.lexeme true) name superclass
      exact (habove.behind (redeclared_locals scopes name)).append (ofMethods_listed _ _ methods)

theorem ofStmts_listed (context : Context) (scopes : Scopes) :
    ∀ body : List Stmt, Listed (ofStmts context scopes body) (Stmt.idsAll body)
  | [] => listed_nothing _
  | s :: rest => (ofStmt_listed context scopes s).append (ofStmts_listed context _ rest)

theorem ofFunction_listed (context : Context) (scopes : Scopes) :
    ∀ f : FunctionDecl, Listed (ofFunction context scopes f) f.ids
  | ⟨_, params, body⟩ => (ofStmts_listed context _ body).behind (ofParams_locals params _)

theorem ofMethods_listed (context : Context) (scopes : Scopes) :
    ∀ fs : List FunctionDecl, Listed (ofMethods context scopes fs) (FunctionDecl.idsAll fs)
  | [] => listed_nothing _
  | f :: rest => (ofFunction_listed _ scopes f).append (ofMethods_listed context scopes rest)

end

/-! ### Tables that agree with the analysis -/

/-- For these occurrences the table has what the analysis found, and nothing else. -/
structure Agrees (r : Resolution) (ids : List Nat) (found : Findings) : Prop where
  nodup : ids.Nodup
  known : ∀ id ∈ ids, id ≤ r.lastId
  listed : ∀ entry ∈ found.locals, r.locals[entry.1]? = some entry.2
  missing : ∀ id ∈ ids, id ∉ found.locals.map Prod.fst → r.locals[id]? = none

namespace Agrees

variable {r : Resolution} {before behind ids : List Nat} {a b : Findings}

theorem split (h : Agrees r (before ++ behind) (a ++ b)) (ha : Listed a before)
    (hb : Listed b behind) : Agrees r before a ∧ Agrees r behind b := by
  obtain ⟨hnodup, hknown, hfound, hmissing⟩ := h
  obtain ⟨hbefore, hbehind, hdisjoint⟩ := List.nodup_append.mp hnodup
  simp only [Findings.append_locals, List.map_append, List.mem_append] at hfound hmissing
  refine ⟨⟨hbefore, fun id hid => hknown id (by simp [hid]),
    fun entry hentry => hfound entry (Or.inl hentry), fun id hid hnot => ?_⟩,
    ⟨hbehind, fun id hid => hknown id (by simp [hid]),
    fun entry hentry => hfound entry (Or.inr hentry), fun id hid hnot => ?_⟩⟩
  · refine hmissing id (Or.inl hid) ?_
    rintro (hmem | hmem)
    · exact hnot hmem
    · exact hdisjoint id hid id (hb.subset hmem) rfl
  · refine hmissing id (Or.inr hid) ?_
    rintro (hmem | hmem)
    · exact hdisjoint id (ha.subset hmem) id hid rfl
    · exact hnot hmem

theorem of_locals (h : Agrees r ids a) (heq : b.locals = a.locals) : Agrees r ids b :=
  ⟨h.nodup, h.known, by rw [heq]; exact h.listed, by rw [heq]; exact h.missing⟩

/-- Findings without occurrences may be left aside. -/
theorem drop_left (h : Agrees r ids (a ++ b)) (ha : a.locals = []) : Agrees r ids b :=
  h.of_locals (by simp [ha])

theorem refers {scopes : Scopes} {occurrence : Occurrence} {name : String}
    (hname : occurrence.name.lexeme = name)
    (h : Agrees r [occurrence.id] (Findings.local? scopes name occurrence.id)) :
    r.Refers scopes occurrence := by
  subst hname
  refine ⟨h.known _ (by simp), ?_⟩
  cases hdistance : scopes.distance? occurrence.name.lexeme with
  | none =>
      refine h.missing _ (by simp) ?_
      simp [Findings.local?, hdistance, Findings.nothing]
  | some distance =>
      exact h.listed (occurrence.id, distance) (by simp [Findings.local?, hdistance])

end Agrees

theorem append_faults_eq_nil {a b : Findings} :
    (a ++ b).faults = [] ↔ a.faults = [] ∧ b.faults = [] := by
  simp

/-! ### What encloses a place, as the scopes show it -/

/-- The scopes of the class around a place are open there. -/
structure Suits (context : Context) (scopes : Scopes) : Prop where
  this : context.classKind ≠ .none → ∃ distance, scopes.distance? "this" = some distance
  super : context.classKind = .derived → ∃ distance,
    scopes.distance? "this" = some distance ∧ scopes.distance? "super" = some (distance + 1)

namespace Suits

variable {context : Context} {scopes : Scopes}

theorem topLevel : Suits .topLevel [] :=
  ⟨fun h => absurd rfl h, fun h => nomatch h⟩

theorem mark (h : Suits context scopes) {name : String} (hname : Ordinary name)
    (complete : Bool) : Suits context (scopes.mark name complete) := by
  obtain ⟨hthis, hsuper⟩ := h
  constructor
  · rwa [Scopes.distance?_mark_of_ne hname.1]
  · rwa [Scopes.distance?_mark_of_ne hname.1, Scopes.distance?_mark_of_ne hname.2]

theorem declare (h : Suits context scopes) {s : Stmt} (hs : s.Formed) :
    Suits context (scopes.declare s) := by
  cases hs with
  | var hname _ => exact h.mark hname true
  | function hf =>
      cases hf with
      | mk hname _ _ => exact h.mark hname true
  | classDecl hname _ _ => exact h.mark hname true
  | _ => exact h

/-- A scope that binds neither `this` nor `super` moves both one further out. -/
theorem push (h : Suits context scopes) {names : Names} (hthis : names.binds "this" = false)
    (hsuper : names.binds "super" = false) : Suits context (names :: scopes) := by
  constructor
  · intro hkind
    obtain ⟨distance, hdistance⟩ := h.this hkind
    exact ⟨distance + 1, by rw [Scopes.distance?_cons, hthis, hdistance]; rfl⟩
  · intro hkind
    obtain ⟨distance, hdistance, hsuper'⟩ := h.super hkind
    refine ⟨distance + 1, ?_, ?_⟩
    · rw [Scopes.distance?_cons, hthis, hdistance]
      rfl
    · rw [Scopes.distance?_cons, hsuper, hsuper']
      rfl

/-- In the methods of a class its own scopes are open. -/
theorem methods (scopes : Scopes) (superclass : Option Occurrence) (context : Context) :
    Suits { context with classKind := if superclass.isSome then .derived else .plain }
      (thisNames :: methodScopes scopes superclass) := by
  have hthis : ∀ outer, Scopes.distance? "this" (thisNames :: outer) = some 0 := by
    intro outer
    rw [Scopes.distance?_cons]
    rfl
  refine ⟨fun _ => ⟨0, hthis _⟩, fun hkind => ⟨0, hthis _, ?_⟩⟩
  cases superclass with
  | none => simp at hkind
  | some occurrence =>
      rw [Scopes.distance?_cons, methodScopes, Scopes.distance?_cons]
      rfl

end Suits

/-! ### Acceptance -/

theorem ResolvedExpr.of_accepted {r : Resolution} {context : Context} {scopes : Scopes}
    (hsuits : Suits context scopes) {e : Expr} (h : e.Formed)
    (hfaults : (ofExpr context scopes e).faults = [])
    (hagrees : Agrees r e.ids (ofExpr context scopes e)) : ResolvedExpr r scopes e := by
  induction h with
  | literal => exact .literal
  | group _ ih => exact .group (ih hfaults hagrees)
  | unary _ ih => exact .unary (ih hfaults hagrees)
  | binary _ _ ihleft ihright =>
      obtain ⟨hfleft, hfright⟩ := append_faults_eq_nil.mp hfaults
      obtain ⟨haleft, haright⟩ :=
        hagrees.split (ofExpr_listed context scopes _) (ofExpr_listed context scopes _)
      exact .binary (ihleft hfleft haleft) (ihright hfright haright)
  | logical _ _ ihleft ihright =>
      obtain ⟨hfleft, hfright⟩ := append_faults_eq_nil.mp hfaults
      obtain ⟨haleft, haright⟩ :=
        hagrees.split (ofExpr_listed context scopes _) (ofExpr_listed context scopes _)
      exact .logical (ihleft hfleft haleft) (ihright hfright haright)
  | conditional _ _ _ ihcondition ihTrue ihFalse =>
      rw [ofExpr] at hfaults hagrees
      rw [Expr.ids, ← List.append_assoc] at hagrees
      obtain ⟨hfboth, hfFalse⟩ := append_faults_eq_nil.mp hfaults
      obtain ⟨hfcondition, hfTrue⟩ := append_faults_eq_nil.mp hfboth
      obtain ⟨haboth, haFalse⟩ := hagrees.split
        ((ofExpr_listed context scopes _).append (ofExpr_listed context scopes _))
        (ofExpr_listed context scopes _)
      obtain ⟨hacondition, haTrue⟩ :=
        haboth.split (ofExpr_listed context scopes _) (ofExpr_listed context scopes _)
      exact .conditional (ihcondition hfcondition hacondition) (ihTrue hfTrue haTrue)
        (ihFalse hfFalse haFalse)
  | use hname =>
      obtain ⟨hread, -⟩ := append_faults_eq_nil.mp hfaults
      exact .use ((hagrees.drop_left (faultIf_locals _ _ _)).refers rfl) hname
        (faultIf_faults.mp hread)
  | assign hname _ ih =>
      obtain ⟨hfvalue, -⟩ := append_faults_eq_nil.mp hfaults
      obtain ⟨havalue, hatarget⟩ :=
        hagrees.split (ofExpr_listed context scopes _) (local?_listed scopes _ _)
      exact .assign (hatarget.refers rfl) hname (ih hfvalue havalue)
  | @call callee paren arguments _ harguments ihcallee iharguments =>
      obtain ⟨hfcallee, hfrow⟩ := append_faults_eq_nil.mp hfaults
      obtain ⟨hacallee, harow⟩ :=
        hagrees.split (ofExpr_listed context scopes _) (ofExprs_listed context scopes _)
      refine .call (ihcallee hfcallee hacallee) ?_
      clear harguments hfaults hagrees
      induction arguments with
      | nil => simp
      | cons e rest ih =>
          obtain ⟨hfe, hfrest⟩ := append_faults_eq_nil.mp hfrow
          obtain ⟨hae, harest⟩ :=
            harow.split (ofExpr_listed context scopes _) (ofExprs_listed context scopes _)
          rw [List.forall_mem_cons] at iharguments ⊢
          exact ⟨iharguments.1 hfe hae, ih iharguments.2 hfrest harest⟩
  | get _ ih => exact .get (ih hfaults hagrees)
  | set _ _ ihobject ihvalue =>
      obtain ⟨hfvalue, hfobject⟩ := append_faults_eq_nil.mp hfaults
      obtain ⟨havalue, haobject⟩ :=
        hagrees.split (ofExpr_listed context scopes _) (ofExpr_listed context scopes _)
      exact .set (ihobject hfobject haobject) (ihvalue hfvalue havalue)
  | this hname =>
      rw [ofExpr] at hfaults hagrees
      split at hfaults
      · exact absurd (faultIf_faults.mp hfaults) (by decide)
      · rename_i hkind
        rw [if_neg hkind] at hagrees
        obtain ⟨distance, hdistance⟩ := hsuits.this hkind
        exact .this hname (hagrees.refers hname) hdistance
  | super hname =>
      rw [ofExpr] at hfaults hagrees
      obtain ⟨hboth, -⟩ := append_faults_eq_nil.mp hfaults
      obtain ⟨houtside, hplain⟩ := append_faults_eq_nil.mp hboth
      have hkind : context.classKind = .derived := by
        have houtside := faultIf_faults.mp houtside
        have hplain := faultIf_faults.mp hplain
        cases hclass : context.classKind <;> simp_all
      obtain ⟨distance, hthis, hsuper⟩ := hsuits.super hkind
      exact .super hname ((hagrees.drop_left (by simp [faultIf_locals])).refers hname) hthis hsuper

/-- The scope of the parameters is what the analysis makes of it, and if it has nothing
to report then no two parameters have one name. -/
theorem ofParams_scopes (params : List Token) (names : Names) (outer : Scopes) :
    (ofParams (names :: outer) params).1
      = params.foldl (fun names param => names.insert param.lexeme true) names :: outer := by
  induction params generalizing names with
  | nil => rfl
  | cons param rest ih =>
      rw [ofParams, List.foldl_cons]
      exact ih (names.insert param.lexeme true)

theorem ofParams_distinct {params : List Token} {names : Names} {outer : Scopes}
    (h : (ofParams (names :: outer) params).2.faults = []) :
    (params.map Token.lexeme).Nodup ∧ ∀ param ∈ params, names.binds param.lexeme = false := by
  induction params generalizing names with
  | nil => simp
  | cons param rest ih =>
      rw [ofParams] at h
      obtain ⟨hnew, hrest⟩ := append_faults_eq_nil.mp h
      obtain ⟨hdistinct, hother⟩ := @ih (names.insert param.lexeme true) hrest
      simp only [Bindings.binds_insert, Bool.or_eq_false_iff, decide_eq_false_iff_not] at hother
      refine ⟨?_, ?_⟩
      · rw [List.map_cons, List.nodup_cons]
        refine ⟨fun hmem => ?_, hdistinct⟩
        obtain ⟨other, hmem, heq⟩ := List.mem_map.mp hmem
        exact (hother other hmem).1 heq.symm
      · rw [List.forall_mem_cons]
        exact ⟨redeclared_faults.mp hnew, fun other hmem => (hother other hmem).2⟩

theorem paramNames_binds {params : List Token} {name : String}
    (h : ∀ param ∈ params, param.lexeme ≠ name) : (paramNames params).binds name = false := by
  have hnot : name ∉ params.map Token.lexeme := by
    intro hmem
    obtain ⟨param, hparam, heq⟩ := List.mem_map.mp hmem
    exact h param hparam heq
  rw [Bindings.binds, get?_paramNames, if_neg hnot]
  rfl

mutual

theorem ResolvedStmt.of_accepted {r : Resolution} {context : Context} {scopes : Scopes}
    (hsuits : Suits context scopes) : ∀ {s : Stmt}, s.Formed →
    (ofStmt context scopes s).2.faults = [] → Agrees r s.ids (ofStmt context scopes s).2 →
    ResolvedStmt r scopes s ∧ (ofStmt context scopes s).1 = scopes.declare s
  | .expression value, h, hfaults, hagrees => by
      cases h with
      | expression h => exact ⟨.expression (.of_accepted hsuits h hfaults hagrees), rfl⟩
  | .print keyword value, h, hfaults, hagrees => by
      cases h with
      | print h => exact ⟨.print (.of_accepted hsuits h hfaults hagrees), rfl⟩
  | .var name none, h, hfaults, hagrees => by
      cases h with
      | var hname h => exact ⟨.var ⟨redeclared_faults.mp hfaults, hname⟩ (by simp), rfl⟩
  | .var name (some value), h, hfaults, hagrees => by
      cases h with
      | var hname h =>
          obtain ⟨hnew, hfvalue⟩ := append_faults_eq_nil.mp hfaults
          have hvalue := ResolvedExpr.of_accepted (hsuits.mark hname false) (h value rfl) hfvalue
            (hagrees.drop_left (redeclared_locals scopes name))
          exact ⟨.var ⟨redeclared_faults.mp hnew, hname⟩ (by simpa using hvalue), rfl⟩
  | .block body, h, hfaults, hagrees => by
      cases h with
      | block h =>
          exact ⟨.block (.of_accepted (hsuits.push rfl rfl) h hfaults hagrees), rfl⟩
  | .ifElse condition onTrue none, h, hfaults, hagrees => by
      cases h with
      | ifElse hcondition hTrue hnested _ _ =>
          obtain ⟨hfcondition, hfTrue⟩ := append_faults_eq_nil.mp hfaults
          obtain ⟨hacondition, haTrue⟩ :=
            hagrees.split (ofExpr_listed context scopes _) (ofStmt_listed context scopes _)
          obtain ⟨hTrue, hscopes⟩ := ResolvedStmt.of_accepted hsuits hTrue hfTrue haTrue
          refine ⟨.ifElse (.of_accepted hsuits hcondition hfcondition hacondition) hTrue hnested
            (by simp) (by simp), ?_⟩
          exact hscopes.trans (scopes.declare_of_nested hnested)
  | .ifElse condition onTrue (some onFalse), h, hfaults, hagrees => by
      cases h with
      | ifElse hcondition hTrue hnested hFalse hnested' =>
          rw [Stmt.ids, ← List.append_assoc] at hagrees
          obtain ⟨hfboth, hfFalse⟩ := append_faults_eq_nil.mp hfaults
          obtain ⟨hfcondition, hfTrue⟩ := append_faults_eq_nil.mp hfboth
          obtain ⟨haboth, haFalse⟩ := hagrees.split
            ((ofExpr_listed context scopes _).append (ofStmt_listed context scopes _))
            (ofStmt_listed context _ _)
          obtain ⟨hacondition, haTrue⟩ :=
            haboth.split (ofExpr_listed context scopes _) (ofStmt_listed context scopes _)
          obtain ⟨hTrue, hscopes⟩ := ResolvedStmt.of_accepted hsuits hTrue hfTrue haTrue
          have hscopes := hscopes.trans (scopes.declare_of_nested hnested)
          rw [hscopes] at hfFalse haFalse
          obtain ⟨hFalse, hscopes'⟩ :=
            ResolvedStmt.of_accepted hsuits (hFalse onFalse rfl) hfFalse haFalse
          refine ⟨.ifElse (.of_accepted hsuits hcondition hfcondition hacondition) hTrue hnested
            (by simpa using hFalse) hnested', ?_⟩
          show (ofStmt context (ofStmt context scopes onTrue).1 onFalse).1 = scopes
          rw [hscopes]
          exact hscopes'.trans (scopes.declare_of_nested (hnested' onFalse rfl))
  | .whileLoop condition body, h, hfaults, hagrees => by
      cases h with
      | whileLoop hcondition hbody hnested =>
          obtain ⟨hfcondition, hfbody⟩ := append_faults_eq_nil.mp hfaults
          obtain ⟨hacondition, habody⟩ :=
            hagrees.split (ofExpr_listed context scopes _) (ofStmt_listed _ scopes _)
          have hinside : Suits { context with inLoop := true } scopes :=
            ⟨hsuits.this, hsuits.super⟩
          obtain ⟨hbody, hscopes⟩ := ResolvedStmt.of_accepted hinside hbody hfbody habody
          refine ⟨.whileLoop (.of_accepted hsuits hcondition hfcondition hacondition) hbody
            hnested, ?_⟩
          exact hscopes.trans (scopes.declare_of_nested hnested)
  | .breakLoop keyword, _, _, _ => ⟨.breakLoop, rfl⟩
  | .returnWith keyword none, _, _, _ => ⟨.returnWith (by simp), rfl⟩
  | .returnWith keyword (some value), h, hfaults, hagrees => by
      cases h with
      | returnWith h =>
          obtain ⟨-, hfvalue⟩ := append_faults_eq_nil.mp hfaults
          have hvalue := ResolvedExpr.of_accepted hsuits (h value rfl) hfvalue
            (hagrees.drop_left (by simp [faultIf_locals]))
          exact ⟨.returnWith (by simpa using hvalue), rfl⟩
  | .function declaration, h, hfaults, hagrees => by
      cases h with
      | function h =>
          have hname : Ordinary declaration.name.lexeme := by
            cases h with
            | mk hname _ _ => exact hname
          obtain ⟨hnew, hffunction⟩ := append_faults_eq_nil.mp hfaults
          have hinside : Suits (context.inFunction .function)
              (scopes.mark declaration.name.lexeme true) :=
            ⟨(hsuits.mark hname true).this, (hsuits.mark hname true).super⟩
          exact ⟨.function ⟨redeclared_faults.mp hnew, hname⟩ (.of_accepted hinside h hffunction
            (hagrees.drop_left (redeclared_locals _ _))), rfl⟩
  | .classDecl name superclass methods, h, hfaults, hagrees => by
      cases h with
      | classDecl hname habove hmethods =>
          obtain ⟨hfboth, hfmethods⟩ := append_faults_eq_nil.mp hfaults
          obtain ⟨hnew, hfabove⟩ := append_faults_eq_nil.mp hfboth
          obtain ⟨haabove, hamethods⟩ := hagrees.split
            ((ofSuperclass_listed _ _ name superclass).behind (redeclared_locals scopes name))
            (ofMethods_listed _ _ methods)
          refine ⟨.classDecl ⟨redeclared_faults.mp hnew, hname⟩ ?_ ?_, rfl⟩
          · intro occurrence hoccurrence
            obtain rfl : superclass = some occurrence := hoccurrence
            obtain ⟨-, hread⟩ := append_faults_eq_nil.mp hfabove
            obtain ⟨hread, -⟩ := append_faults_eq_nil.mp hread
            have haabove := (haabove.drop_left (redeclared_locals scopes name)).drop_left
              (faultIf_locals _ _ _)
            exact .use ((haabove.drop_left (faultIf_locals _ _ _)).refers rfl) (habove occurrence rfl)
              (faultIf_faults.mp hread)
          · have hclass : classScopes (scopes.mark name.lexeme true) superclass
                = thisNames :: methodScopes (scopes.mark name.lexeme true) superclass := by
              cases superclass <;> rfl
            rw [hclass] at hfmethods hamethods
            exact resolvedMethods_of_accepted (Suits.methods _ superclass context) hmethods
              hfmethods hamethods

theorem ResolvedStmts.of_accepted {r : Resolution} {context : Context} {scopes : Scopes}
    (hsuits : Suits context scopes) : ∀ {body : List Stmt}, (∀ s ∈ body, s.Formed) →
    (ofStmts context scopes body).faults = [] →
    Agrees r (Stmt.idsAll body) (ofStmts context scopes body) → ResolvedStmts r scopes body
  | [], _, _, _ => .nil
  | s :: rest, h, hfaults, hagrees => by
      rw [List.forall_mem_cons] at h
      obtain ⟨hfs, hfrest⟩ := append_faults_eq_nil.mp hfaults
      obtain ⟨has, harest⟩ :=
        hagrees.split (ofStmt_listed context scopes _) (ofStmts_listed context _ _)
      obtain ⟨hs, hscopes⟩ := ResolvedStmt.of_accepted hsuits h.1 hfs has
      rw [hscopes] at hfrest harest
      exact .cons hs (.of_accepted (hsuits.declare h.1) h.2 hfrest harest)

theorem ResolvedFunction.of_accepted {r : Resolution} {context : Context} {scopes : Scopes}
    (hsuits : Suits context scopes) : ∀ {f : FunctionDecl}, f.Formed →
    (ofFunction context scopes f).faults = [] → Agrees r f.ids (ofFunction context scopes f) →
    ResolvedFunction r scopes f
  | ⟨name, params, body⟩, h, hfaults, hagrees => by
      cases h with
      | mk hname hparams hbody =>
          obtain ⟨hfparams, hfbody⟩ := append_faults_eq_nil.mp hfaults
          have habody := hagrees.drop_left (ofParams_locals params ([] :: scopes))
          rw [ofParams_scopes] at hfbody habody
          refine .mk (ofParams_distinct hfparams).1 hparams (.of_accepted ?_ hbody hfbody habody)
          exact hsuits.push (paramNames_binds fun param hparam => (hparams param hparam).1)
            (paramNames_binds fun param hparam => (hparams param hparam).2)

theorem resolvedMethods_of_accepted {r : Resolution} {context : Context} {scopes : Scopes}
    (hsuits : Suits context scopes) : ∀ {fs : List FunctionDecl}, (∀ f ∈ fs, f.Formed) →
    (ofMethods context scopes fs).faults = [] →
    Agrees r (FunctionDecl.idsAll fs) (ofMethods context scopes fs) →
    ∀ f ∈ fs, ResolvedFunction r scopes f
  | [], _, _, _ => by simp
  | f :: rest, h, hfaults, hagrees => by
      rw [List.forall_mem_cons] at h
      obtain ⟨hff, hfrest⟩ := append_faults_eq_nil.mp hfaults
      obtain ⟨haf, harest⟩ :=
        hagrees.split (ofFunction_listed _ scopes _) (ofMethods_listed context scopes _)
      have hinside : Suits (context.inFunction (.ofMethod f.name.lexeme)) scopes :=
        ⟨hsuits.this, hsuits.super⟩
      exact List.forall_mem_cons.mpr ⟨.of_accepted hinside h.1 hff haf,
        resolvedMethods_of_accepted hsuits h.2 hfrest harest⟩

end

/-! ### Programs one after the other -/

/-- Outside of all scopes nothing is declared. -/
theorem ofStmt_outside : ∀ (context : Context) (s : Stmt), (ofStmt context [] s).1 = []
  | _, .expression _ | _, .print _ _ | _, .var _ none | _, .var _ (some _) | _, .block _
  | _, .breakLoop _ | _, .function _ | _, .returnWith _ none | _, .returnWith _ (some _)
  | _, .classDecl _ _ _ => rfl
  | context, .ifElse _ onTrue none => ofStmt_outside context onTrue
  | context, .ifElse _ onTrue (some onFalse) => by
      show (ofStmt context (ofStmt context [] onTrue).1 onFalse).1 = []
      rw [ofStmt_outside context onTrue, ofStmt_outside context onFalse]
  | _, .whileLoop _ body => ofStmt_outside _ body

theorem analyse_cons (s : Stmt) (rest : List Stmt) :
    analyse (s :: rest) = (ofStmt .topLevel [] s).2 ++ analyse rest := by
  show (ofStmt .topLevel [] s).2 ++ ofStmts .topLevel (ofStmt .topLevel [] s).1 rest = _
  rw [ofStmt_outside]
  rfl

/-- The analysis of two programs one after the other is the analysis of the one and then of
the other. -/
theorem analyse_append (program others : List Stmt) :
    analyse (program ++ others) = analyse program ++ analyse others := by
  induction program with
  | nil => rfl
  | cons s rest ih =>
      rw [List.cons_append, analyse_cons, analyse_cons, ih]
      show Findings.mk _ _ = Findings.mk _ _
      simp only [Findings.append_locals, Findings.append_faults, List.append_assoc]

end Lox.Scope
