/-
The machine follows the reference everywhere.

By induction on the fuel of the reference: what it does with one more unit of fuel, it puts
together from what it does with parts of the program, and for each form of expression and
of statement the machine puts together the same.  Declarations are where the two differ.
The reference makes a new cell, at once or behind the superclass of a class; the machine
binds a name in a frame that is there already.
-/
import Lox.Proofs.Lexical.Calls

namespace Lox.Lexical

open Scope
open Machine (State Pending Control Completion Answer)

section Forms

variable {clock : Nat → Float} {r : Resolution} {fuel : Nat} {base : Base} {top : Address}
  {scopes : Scopes} {w w₀ : Layout} {t : Store} {m m₀ : Memory} {sink : Machine.Sink}
  {visible : Visible} {control : Control}

/-! ### Expressions -/

theorem Faithful.expr_succ (h : Faithful clock r fuel) {e : Expr}
    (htogether : Together r w t m sink scopes visible top base.env) (he : ResolvedExpr r scopes e) :
    Follows clock r (fuel + 1) base (Gives base (top + 1) w m) (base.state (.evaluate e) m sink)
      (evaluate clock (fuel + 1) base.depth visible e t) := by
  refine .step ?_
  cases he with
  | literal => exact .here (.intro (.refl _ _ _) htogether.agrees (.ofLiteral _))
  | group hinner => exact h.expr htogether hinner
  | @unary operator operand hoperand =>
      rw [evaluate]
      refine h.part htogether hoperand (.unary operator) (fun _ _ _ => ⟨1, rfl⟩)
        fun hlater htogether' halike => ?_
      exact follows_operate htogether'.resolution htogether'.agrees hlater (halike.unary _)
  | @binary operator left right hleft hright =>
      rw [evaluate]
      refine h.part htogether hleft (.leftOperand operator right) (fun _ _ _ => ⟨1, rfl⟩)
        fun hlater htogether' halike => ?_
      refine h.part htogether' hright (.rightOperand operator _) (fun _ _ _ => ⟨1, rfl⟩)
        fun hlater' htogether'' halike' => ?_
      exact follows_operate htogether''.resolution htogether''.agrees (hlater.trans hlater')
        ((halike.extend hlater'.extends).binary _ halike')
  | @logical operator left right hleft hright =>
      rw [evaluate]
      refine h.part htogether hleft (.logical operator right) (fun _ _ _ => ⟨1, rfl⟩)
        fun hlater htogether' halike => ?_
      have hleft : Follows clock r fuel base (Gives base (top + 1) w m) _ _ :=
        .here (.intro hlater htogether'.agrees halike)
      have hright := (h.expr htogether' hright).imp fun _ _ _ hgives => hgives.since hlater
      rw [halike.isTruthy]
      unfold Machine.resume
      dsimp only
      generalize operator.kind = kind
      generalize Value.isTruthy _ = truthy
      by_cases hor : kind = .kwOr
      · subst hor
        cases truthy
        · exact hright
        · exact hleft
      by_cases hand : kind = .kwAnd
      · subst hand
        cases truthy
        · exact hleft
        · exact hright
      cases kind <;> first | exact absurd rfl hor | exact absurd rfl hand | exact hright
  | @conditional condition onTrue onFalse hcondition hTrue hFalse =>
      rw [evaluate]
      refine h.part htogether hcondition (.choice onTrue onFalse) (fun _ _ _ => ⟨1, rfl⟩)
        fun {_ _ _ _ v v'} hlater htogether' halike => ?_
      have hchosen : ResolvedExpr r scopes (if v'.isTruthy then onTrue else onFalse) := by
        split
        · exact hTrue
        · exact hFalse
      rw [halike.isTruthy]
      exact (h.expr htogether' hchosen).imp fun _ _ _ hgives => hgives.since hlater
  | use hrefers => exact follows_use htogether hrefers
  | @assign target value hrefers _ hvalue =>
      rw [evaluate]
      refine h.part htogether hvalue (.assignment target) (fun _ _ _ => ⟨1, rfl⟩)
        fun hlater htogether' halike => ?_
      exact (follows_write htogether' hrefers halike).imp fun _ _ _ hgives => hgives.since hlater
  | @call callee paren arguments hcallee harguments =>
      rw [evaluate]
      refine h.part htogether hcallee (.callee paren arguments) (fun _ _ _ => ⟨1, rfl⟩)
        fun {_ _ _ _ _ v'} hlater htogether' halike => ?_
      have hresume : ∀ s : State, Machine.resume ⟨r.locals, clock⟩ s v' (.callee paren arguments)
          = nextArgument clock r s v' paren [] arguments := by
        intro s
        cases arguments <;> rfl
      rw [hresume]
      exact (h.arguments htogether' halike .nil harguments).imp fun _ _ _ hgives =>
        hgives.since hlater
  | @get object property hobject =>
      rw [evaluate]
      refine h.part htogether hobject (.property property) (fun _ _ _ => ⟨1, rfl⟩)
        fun hlater htogether' halike => ?_
      exact (follows_getProperty htogether'.resolution htogether'.agrees htogether'.here.size
        halike).imp fun _ _ _ hgives => hgives.since hlater
  | @set object property value hobject hvalue =>
      rw [evaluate]
      refine h.part htogether hobject (.setTarget property value) (fun _ _ _ => ⟨1, rfl⟩)
        fun hlater htogether' halike => ?_
      cases halike with
      | @object address _ _ hclass =>
          refine h.part htogether' hvalue (.setValue address property) (fun _ _ _ => ⟨1, rfl⟩)
            fun hlater' htogether'' halike' => ?_
          exact (follows_setField htogether''.agrees halike').imp fun _ _ _ hgives =>
            hgives.since (hlater.trans hlater')
      | _ => exact .fail htogether'.resolution htogether'.agrees
  | this _ hrefers => exact follows_use htogether hrefers
  | super hname hrefers hthis hsuper =>
      exact follows_inherited htogether htogether.here.size hname hrefers hthis hsuper

/-! ### Declarations -/

theorem holder?_of_head {env : Env} {name : String} (hhead : env.head? = some top)
    (hbinds : (m.frame top).binds name) : m.holder? env name = some top := by
  obtain ⟨outer, rfl⟩ := List.head?_eq_some_iff.mp hhead
  exact List.find?_cons_of_pos hbinds

/-- Giving the declared variable its value ends a declaration. -/
theorem follows_define {target : Variable} {name : String} {complete : Bool} {v : Value Visible}
    {v' : Value}
    (htogether : Together r w t m sink (scopes.mark name complete) visible top base.env)
    (hlater : Later top w₀ m₀ w m) (hstands : Stands w.slots target top name)
    (hv : Alike w v v') :
    Follows clock r fuel base (Ends base top top (scopes.mark name true) w₀ m₀)
      (base.state (.complete .normal) (m.bindAt top name v') sink)
      ((define target v >>= fun _ => pure (Ending.normal visible)) t) := by
  have hsame : ∀ bound, Later bound w m w (m.bindAt top name v') :=
    fun bound => .same (Memory.size_bindAt _ _ _ _).symm
  exact .here (.normal (hlater.trans (hsame top)) (htogether.agrees.put hstands hv)
    ((htogether.here.remark true).later (hsame (top + 1))))

/-- The class of a declaration, whose methods see what `around` shows. -/
theorem follows_layer {target : Variable} {name : Token} {methods : List FunctionDecl}
    {around : Visible} {env : Env} {outside : Scopes} {layers : List (ClassLayer Visible)}
    {layers' : List ClassLayer}
    (htogether : Together r w t m sink (scopes.mark name.lexeme true) visible top base.env)
    (hlater : Later top w₀ m₀ w m) (hstands : Stands w.slots target top name.lexeme)
    (hsees : Sees w.slots outside around env)
    (hmethods : ∀ f ∈ methods, ResolvedFunction r (thisNames :: outside) f)
    (hlayers : List.Forall₂ (LayerAlike w) layers layers') :
    Follows clock r fuel base (Ends base top top (scopes.mark name.lexeme true) w₀ m₀)
      (base.state (.complete .normal)
        (m.newIdentity.2.bindAt top name.lexeme (.classValue
          ⟨⟨m.nextIdentity, name.lexeme, Machine.methodTable env methods⟩, layers'⟩)) sink)
      ((do
        let identity ← newIdentity
        define target (.classValue
          ⟨⟨identity, name.lexeme, Machine.methodTable around methods⟩, layers⟩)
        return Ending.normal visible) t) := by
  have hidentity : newIdentity t
      = (.done m.nextIdentity, { t with nextIdentity := t.nextIdentity + 1 }) := by
    rw [newIdentity, htogether.agrees.nextIdentity]
  have hclass : ClassAlike w
      ⟨⟨m.nextIdentity, name.lexeme, Machine.methodTable around methods⟩, layers⟩
      ⟨⟨m.nextIdentity, name.lexeme, Machine.methodTable env methods⟩, layers'⟩ := by
    rw [← htogether.resolution] at hmethods
    exact ⟨⟨rfl, rfl, methodTable_alike hsees hmethods⟩, hlayers⟩
  have htogether' : Together r w { t with nextIdentity := t.nextIdentity + 1 } m.newIdentity.2 sink
      (scopes.mark name.lexeme true) visible top base.env :=
    htogether.later (.same rfl) htogether.agrees.newIdentity
  rw [bind_of_done hidentity]
  exact follows_define htogether' (hlater.trans (.same rfl)) hstands (.classValue hclass)

/-- What follows the superclass in the declaration of a class. -/
theorem follows_finishClass {target : Variable} {name : Token} {methods : List FunctionDecl}
    {superclass : Option (Class Visible)} {superclass' : Option Class}
    {occurrence : Option Occurrence}
    (htogether : Together r w t m sink (scopes.mark name.lexeme true) visible top base.env)
    (hlater : Later top w₀ m₀ w m) (hstands : Stands w.slots target top name.lexeme)
    (hbinds : (m.frame top).binds name.lexeme)
    (habove : Option.Rel (ClassAlike w) superclass superclass')
    (hoccurrence : occurrence.isSome = superclass.isSome)
    (hmethods : ∀ f ∈ methods,
      ResolvedFunction r (thisNames :: methodScopes (scopes.mark name.lexeme true) occurrence) f) :
    Follows clock r fuel base (Ends base top top (scopes.mark name.lexeme true) w₀ m₀)
      (Machine.finishClass (base.state control m sink) name superclass' methods)
      ((do
        let c ← newClass visible name superclass methods
        define target c
        return Ending.normal visible) t) := by
  cases habove with
  | none =>
      obtain rfl : occurrence = none := Option.not_isSome_iff_eq_none.mp (by simp [hoccurrence])
      have hholder : m.newIdentity.2.holder? base.env name.lexeme = some top :=
        holder?_of_head htogether.here.head hbinds
      unfold Machine.finishClass
      dsimp only [Machine.classEnv, Base.state]
      rw [hholder]
      exact follows_layer htogether hlater hstands htogether.here.sees hmethods .nil
  | @some class_ class_' habove =>
      obtain ⟨_, rfl⟩ : ∃ o, occurrence = some o := Option.isSome_iff_exists.mp hoccurrence
      have hrow : List.Forall₂ (EntryAlike w) [("super", .classValue class_)]
          [("super", .classValue class_')] := .cons ⟨rfl, .classValue habove⟩ .nil
      obtain ⟨w₁, t₁, around, hbind, hlater₁, hagrees₁, hhere₁⟩ :=
        htogether.here.sees.open_with htogether.agrees hrow (by simp)
      have hlater₁' := hlater₁.mono htogether.here.size
      have htogether₁ := htogether.later hlater₁' hagrees₁
      have hholder : (m.newFrame [("super", .classValue class_')]).2.newIdentity.2.holder? base.env
          name.lexeme = some top := by
        refine holder?_of_head htogether.here.head ?_
        show ((m.newFrame _).2.frame top).binds name.lexeme
        rwa [Memory.frame_newFrame, if_neg (Nat.ne_of_lt htogether.here.size)]
      unfold Machine.finishClass
      dsimp only [Machine.classEnv, Base.state]
      have hnew : newClass visible name (some class_) methods
          = bindAll visible [("super", .classValue class_)] >>= fun around => do
              let identity ← newIdentity
              return .classValue
                ⟨⟨identity, name.lexeme, Machine.methodTable around methods⟩, class_.layers⟩ := rfl
      rw [hholder, hnew, bind_assoc, bind_of_done hbind]
      exact follows_layer htogether₁ (hlater.trans (hlater₁'.mono (Nat.le_succ top)))
        (hstands.extend hlater₁.extends) hhere₁.sees hmethods (habove.extend hlater₁.extends).layers

/-! ### Statements -/

theorem Follows.same_step {α : Type} {goal : α → Store → State → Prop} {s s' : State}
    {result : Result α × Store} (h : Follows clock r fuel base goal s result)
    (hstep : Machine.step ⟨r.locals, clock⟩ s = Machine.step ⟨r.locals, clock⟩ s')
    (hgoal : ∀ a t, ¬goal a t s) (hcontrol : ∀ c, s.control ≠ .complete c)
    (hended : s'.ended? = none) :
    Follows clock r fuel base goal s' result := by
  cases h with
  | done steps h =>
      cases steps with
      | zero => exact absurd h (hgoal _ _)
      | succ steps =>
          rw [Machine.run_succ, hstep, ← Machine.run_succ] at h
          exact .done _ h
  | failed steps hrun hresolution hagrees =>
      cases steps with
      | zero => exact absurd (congrArg State.control hrun) (hcontrol _)
      | succ steps =>
          rw [Machine.run_succ, hstep, ← Machine.run_succ] at hrun
          exact .failed _ hrun hresolution hagrees
  | outOfFuel h =>
      cases fuel with
      | zero => exact .outOfFuel hended
      | succ fuel =>
          rw [Machine.run_succ, hstep, ← Machine.run_succ] at h
          exact .outOfFuel h

theorem follows_printLine {keyword : Token} {v : Value Visible} {v' : Value} {bound : Address}
    (htogether : Together r w t m sink scopes visible top base.env)
    (hlater : Later bound w₀ m₀ w m) (hv : Alike w v v') :
    Follows clock r fuel base (fun _ => Ends base bound top scopes w₀ m₀ (.normal visible))
      (Machine.resume ⟨r.locals, clock⟩ (base.state control m sink) v' (.print keyword))
      (printLine keyword v t) := by
  unfold Machine.resume printLine
  rw [htogether.agrees.sink, hv.display]
  dsimp only [Base.state]
  obtain ⟨lost, written⟩ := sink.writeLine v'.display
  have hagrees := htogether.agrees.written written
  cases lost with
  | none => exact .here (.normal hlater hagrees htogether.here)
  | some reason => exact .fail htogether.resolution hagrees

/-- A statement that declares nothing leaves the scopes as they are. -/
theorem Faithful.nested (h : Faithful clock r fuel) {s : Stmt}
    (htogether : Together r w t m sink scopes visible top base.env) (hs : ResolvedStmt r scopes s)
    (hnested : s.isDeclaration = false) (hlater : Later (top + 1) w₀ m₀ w m) :
    Follows clock r fuel base (Ends base (top + 1) top scopes w₀ m₀)
      (base.state (.execute s) m sink) (execute clock fuel base.depth visible s t) := by
  have hstmt := h.stmt htogether hs
  have hreach : reach s top = top + 1 := by
    rw [reach, hnested]
    rfl
  rw [hreach, Scopes.declare_of_nested scopes hnested] at hstmt
  exact hstmt.imp fun _ _ _ hends => hends.since hlater

theorem Faithful.varDecl (h : Faithful clock r fuel) {name : Token} {initializer : Option Expr}
    (htogether : Together r w t m sink scopes visible top base.env)
    (hnew : scopes.IsNew name)
    (hvalue : ∀ value ∈ initializer, ResolvedExpr r (scopes.mark name.lexeme false) value) :
    Follows clock r fuel base (Ends base top top (scopes.mark name.lexeme true) w m)
      (Machine.execute (base.state control m sink) (.var name initializer))
      (execute clock (fuel + 1) base.depth visible (.var name initializer) t) := by
  obtain ⟨w₁, t₁, behind, target, hdeclare, hlater₁, hagrees₁, hhere₁, hstands⟩ :=
    htogether.here.declare htogether.agrees hnew.1 false
  have htogether₁ : Together r w₁ t₁ m sink (scopes.mark name.lexeme false) behind top base.env :=
    ⟨hlater₁.resolution.trans htogether.resolution, hagrees₁, hhere₁⟩
  cases initializer with
  | none =>
      rw [execute, bind_of_done hdeclare]
      show Follows clock r fuel base _
        (base.state (.complete .normal) (m.define base.env name.lexeme .nil) sink) _
      rw [htogether.here.define_eq]
      exact follows_define htogether₁ hlater₁ hstands .nil
  | some value =>
      rw [execute, bind_of_done hdeclare]
      refine h.part htogether₁ (hvalue value rfl) (.define name) (fun _ _ _ => ⟨1, rfl⟩)
        fun {_ _ m' sink' _ v'} hlater htogether' halike => ?_
      show Follows clock r fuel base _
        (base.state (.complete .normal) (m'.define base.env name.lexeme v') sink') _
      rw [htogether.here.define_eq]
      exact follows_define htogether' (hlater₁.trans (hlater.mono (Nat.le_succ top)))
        (hstands.extend hlater.extends) halike

theorem follows_functionDecl {declaration : FunctionDecl}
    (htogether : Together r w t m sink scopes visible top base.env)
    (hnew : scopes.IsNew declaration.name)
    (hfunction : ResolvedFunction r (scopes.mark declaration.name.lexeme true) declaration) :
    Follows clock r fuel base (Ends base top top (scopes.mark declaration.name.lexeme true) w m)
      (Machine.execute (base.state control m sink) (.function declaration))
      (execute clock (fuel + 1) base.depth visible (.function declaration) t) := by
  obtain ⟨w₁, t₁, behind, target, hdeclare, hlater₁, hagrees₁, hhere₁, hstands⟩ :=
    htogether.here.declare htogether.agrees hnew.1 true
  have htogether₁ : Together r w₁ { t₁ with nextIdentity := t₁.nextIdentity + 1 }
      m.newIdentity.2 sink (scopes.mark declaration.name.lexeme true) behind top base.env :=
    ⟨hlater₁.resolution.trans htogether.resolution, hagrees₁.newIdentity,
      hhere₁.later (.same rfl)⟩
  have hclosure : FunctionAlike w₁ ⟨declaration, behind, false⟩ ⟨declaration, base.env, false⟩ := by
    rw [← htogether₁.resolution] at hfunction
    refine ⟨rfl, rfl, _, hhere₁.sees, hfunction, fun hinitializer => ?_⟩
    cases hinitializer
  have hfunction' : newFunction ⟨declaration, behind, false⟩ t₁
      = (.done (.function t₁.nextIdentity ⟨declaration, behind, false⟩),
        { t₁ with nextIdentity := t₁.nextIdentity + 1 }) := rfl
  rw [execute, bind_of_done hdeclare]
  dsimp only
  rw [bind_of_done hfunction']
  show Follows clock r fuel base _ (base.state (.complete .normal)
    (m.newIdentity.2.define base.env declaration.name.lexeme
      (.function m.nextIdentity ⟨declaration, base.env, false⟩)) sink) _
  rw [htogether.here.define_eq, ← hagrees₁.nextIdentity]
  exact follows_define htogether₁ (hlater₁.trans (.same rfl)) hstands (.function _ hclosure)

/-- Going on with the value of the superclass. -/
theorem follows_inherit {target : Variable} {name : Token} {methods : List FunctionDecl}
    {occurrence : Occurrence} {v : Value Visible} {v' : Value}
    (htogether : Together r w t m sink (scopes.mark name.lexeme true) visible top base.env)
    (hlater : Later top w₀ m₀ w m) (hstands : Stands w.slots target top name.lexeme)
    (hbinds : (m.frame top).binds name.lexeme) (hv : Alike w v v')
    (hmethods : ∀ f ∈ methods, ResolvedFunction r
      (thisNames :: methodScopes (scopes.mark name.lexeme true) (some occurrence)) f) :
    Follows clock r fuel base (Ends base top top (scopes.mark name.lexeme true) w₀ m₀)
      (Machine.resume ⟨r.locals, clock⟩ (base.state control m sink) v'
        (.inherit name occurrence methods))
      ((match v with
        | .classValue class_ => do
            let c ← newClass visible name (some class_) methods
            define target c
            return Ending.normal visible
        | _ => Action.fail occurrence.name .superclassNotClass) t) := by
  unfold Machine.resume
  cases hv with
  | classValue habove =>
      dsimp only
      exact follows_finishClass htogether hlater hstands hbinds (.some habove) rfl hmethods
  | _ => exact .fail htogether.resolution htogether.agrees

theorem follows_classDecl {name : Token} {superclass : Option Occurrence}
    {methods : List FunctionDecl}
    (htogether : Together r w t m sink scopes visible top base.env)
    (hnew : scopes.IsNew name)
    (habove : ∀ occurrence ∈ superclass,
      ResolvedExpr r (scopes.mark name.lexeme true) (.use occurrence))
    (hmethods : ∀ f ∈ methods,
      ResolvedFunction r (thisNames :: methodScopes (scopes.mark name.lexeme true) superclass) f) :
    Follows clock r fuel base (Ends base top top (scopes.mark name.lexeme true) w m)
      (Machine.execute (base.state control m sink) (.classDecl name superclass methods))
      (execute clock (fuel + 1) base.depth visible (.classDecl name superclass methods) t) := by
  obtain ⟨w₁, t₁, behind, target, hdeclare, hlater₁, hagrees₁, hhere₁, hstands⟩ :=
    htogether.here.declare htogether.agrees hnew.1 true
  have hagrees₂ := hagrees₁.put hstands .nil
  have hsame : ∀ bound, Later bound w₁ m w₁ (m.bindAt top name.lexeme .nil) :=
    fun bound => .same (Memory.size_bindAt _ _ _ _).symm
  have htogether₂ : Together r w₁ (t₁.put target .nil) (m.bindAt top name.lexeme .nil) sink
      (scopes.mark name.lexeme true) behind top base.env :=
    ⟨hlater₁.resolution.trans htogether.resolution, hagrees₂, hhere₁.later (hsame _)⟩
  have hlater₂ := hlater₁.trans (hsame top)
  have hbinds : ((m.bindAt top name.lexeme .nil).frame top).binds name.lexeme := by
    rw [Memory.binds_bindAt, decide_eq_true ⟨rfl, htogether.here.size, rfl⟩, Bool.true_or]
  have hdefine : define target .nil t₁ = (.done (), t₁.put target .nil) := rfl
  cases superclass with
  | none =>
      rw [execute, bind_of_done hdeclare]
      dsimp only
      rw [bind_of_done hdefine]
      show Follows clock r fuel base _ (Machine.finishClass
        (base.state _ (m.define base.env name.lexeme .nil) sink) name none methods) _
      rw [htogether.here.define_eq]
      exact follows_finishClass htogether₂ hlater₂ hstands hbinds .none rfl hmethods
  | some occurrence =>
      rw [execute, bind_of_done hdeclare]
      dsimp only
      rw [bind_of_done hdefine]
      cases habove occurrence rfl with
      | use hrefers _ _ =>
      have hread : Follows clock r fuel (base.push (.inherit name occurrence methods)) _
          (Machine.lookup ⟨r.locals, clock⟩
            ((base.push (.inherit name occurrence methods)).state
              (.evaluate (.use occurrence)) (m.bindAt top name.lexeme .nil) sink) occurrence)
          (read behind occurrence.name (t₁.put target .nil)) := follows_read htogether₂ hrefers
      refine .skip ?_
      show Follows clock r fuel base _ (Machine.lookup ⟨r.locals, clock⟩
        ((base.push (.inherit name occurrence methods)).state (.evaluate (.use occurrence))
          (m.define base.env name.lexeme .nil) sink) occurrence) _
      rw [htogether.here.define_eq]
      refine hread.bind (fun _ _ _ => ⟨1, rfl⟩) fun v t' s hread => ?_
      obtain ⟨rfl, v', rfl, halike⟩ := hread
      exact .skip (follows_inherit htogether₂ hlater₂ hstands hbinds halike hmethods)

theorem Faithful.block (h : Faithful clock r fuel) {body : List Stmt}
    (htogether : Together r w t m sink scopes visible top base.env)
    (hbody : ResolvedStmts r ([] :: scopes) body) :
    Follows clock r fuel base (Ends base (top + 1) top scopes w m)
      (Machine.execute (base.state control m sink) (.block body))
      (execute clock (fuel + 1) base.depth visible (.block body) t) := by
  rw [execute]
  have hinside : Together r w t (m.newFrame []).2 sink ([] :: scopes) visible.inside m.frames.size
      (m.frames.size :: base.env) :=
    ⟨htogether.resolution, htogether.agrees.newFrame,
      htogether.here.sees.open htogether.agrees⟩
  have hrow : Follows clock r fuel
      ⟨.leaveBlock base.env :: base.pending, m.frames.size :: base.env, base.depth⟩
      (Ends ⟨.leaveBlock base.env :: base.pending, m.frames.size :: base.env, base.depth⟩
        m.frames.size m.frames.size (body.foldl Scopes.declare ([] :: scopes)) w
        (m.newFrame []).2)
      _ (executeAll (execute clock fuel base.depth) visible.inside body t) :=
    h.stmts hinside hbody
  have hsince : ∀ {w' m'}, Later m.frames.size w (m.newFrame []).2 w' m' →
      Later (top + 1) w m w' m' :=
    fun hlater => (later_newFrame _ _ _ _).trans (hlater.mono htogether.here.size)
  refine hrow.bind (fun _ _ _ => ⟨1, rfl⟩) fun ending t' s' hends => ?_
  cases hends with
  | normal hlater hagrees _ =>
      exact .skip (.here (.normal (hsince hlater) hagrees
        (htogether.here.later (hsince hlater))))
  | broken hlater hagrees => exact .skip (.here (.broken (hsince hlater) hagrees))
  | returned hlater hagrees halike =>
      exact .skip (.here (.returned (hsince hlater) hagrees halike))

theorem Faithful.ifElse (h : Faithful clock r fuel) {condition : Expr} {onTrue : Stmt}
    {onFalse : Option Stmt}
    (htogether : Together r w t m sink scopes visible top base.env)
    (hcondition : ResolvedExpr r scopes condition) (hTrue : ResolvedStmt r scopes onTrue)
    (hnested : onTrue.isDeclaration = false) (hFalse : ∀ s ∈ onFalse, ResolvedStmt r scopes s)
    (hnested' : ∀ s ∈ onFalse, s.isDeclaration = false) :
    Follows clock r fuel base (Ends base (top + 1) top scopes w m)
      (Machine.execute (base.state control m sink) (.ifElse condition onTrue onFalse))
      (execute clock (fuel + 1) base.depth visible (.ifElse condition onTrue onFalse) t) := by
  have hexecute : execute clock (fuel + 1) base.depth visible (.ifElse condition onTrue onFalse)
      = (evaluate clock fuel base.depth visible condition >>= fun v =>
          if v.isTruthy then execute clock fuel base.depth visible onTrue
          else onFalse.elim (return .normal visible) (execute clock fuel base.depth visible)) := by
    cases onFalse <;> rfl
  rw [hexecute]
  refine h.part htogether hcondition (.branch onTrue onFalse) (fun _ _ _ => ⟨1, rfl⟩)
    fun {_ _ _ _ v v'} hlater htogether' halike => ?_
  unfold Machine.resume
  dsimp only
  rw [halike.isTruthy]
  by_cases htruthy : v'.isTruthy
  · rw [if_pos htruthy, if_pos htruthy]
    exact h.nested htogether' hTrue hnested hlater
  rw [if_neg htruthy, if_neg htruthy]
  cases onFalse with
  | none => exact .here (.normal hlater htogether'.agrees htogether'.here)
  | some s => exact h.nested htogether' (hFalse s rfl) (hnested' s rfl) hlater

theorem Faithful.whileLoop (h : Faithful clock r fuel) {condition : Expr} {body : Stmt}
    (htogether : Together r w t m sink scopes visible top base.env)
    (hcondition : ResolvedExpr r scopes condition) (hbody : ResolvedStmt r scopes body)
    (hnested : body.isDeclaration = false) :
    Follows clock r fuel base (Ends base (top + 1) top scopes w m)
      (Machine.execute (base.state control m sink) (.whileLoop condition body))
      (execute clock (fuel + 1) base.depth visible (.whileLoop condition body) t) := by
  rw [execute]
  refine h.part htogether hcondition (.loopTest condition body) (fun _ _ _ => ⟨1, rfl⟩)
    fun {w₁ t₁ m₁ sink₁ v v'} hlater htogether' halike => ?_
  unfold Machine.resume
  dsimp only
  rw [halike.isTruthy]
  by_cases htruthy : v'.isTruthy
  · rw [if_pos htruthy, if_pos htruthy]
    have hround : Follows clock r fuel (base.push (.loopBody condition body))
        (Ends (base.push (.loopBody condition body)) (top + 1) top scopes w m)
        ((base.push (.loopBody condition body)).state (.execute body) m₁ sink₁)
        (execute clock fuel base.depth visible body t₁) :=
      h.nested htogether' hbody hnested hlater
    refine hround.bind (fun _ _ _ => ⟨1, rfl⟩) fun ending t' s' hends => ?_
    cases hends with
    | normal hlater hagrees _ =>
        have hagain := h.nested (htogether.later hlater hagrees)
          (.whileLoop hcondition hbody hnested) rfl hlater
        refine hagain.same_step rfl (fun ending t hends => ?_) (fun c hcomplete => ?_) rfl
        · cases hends
        · cases hcomplete
    | broken hlater hagrees =>
        exact .skip (.here (.normal hlater hagrees (htogether.here.later hlater)))
    | returned hlater hagrees halike => exact .skip (.here (.returned hlater hagrees halike))
  rw [if_neg htruthy, if_neg htruthy]
  exact .here (.normal hlater htogether'.agrees htogether'.here)

theorem Faithful.stmt_succ (h : Faithful clock r fuel) {s : Stmt}
    (htogether : Together r w t m sink scopes visible top base.env) (hs : ResolvedStmt r scopes s) :
    Follows clock r (fuel + 1) base (Ends base (reach s top) top (scopes.declare s) w m)
      (base.state (.execute s) m sink) (execute clock (fuel + 1) base.depth visible s t) := by
  refine .step ?_
  cases hs with
  | expression hvalue =>
      rw [execute]
      refine h.part htogether hvalue .discard (fun _ _ _ => ⟨1, rfl⟩)
        fun hlater htogether' _ => ?_
      exact .here (.normal hlater htogether'.agrees htogether'.here)
  | @print _ keyword value hvalue =>
      rw [execute]
      refine h.part htogether hvalue (.print keyword) (fun _ _ _ => ⟨1, rfl⟩)
        fun hlater htogether' halike => ?_
      exact (follows_printLine htogether' hlater halike).bind (.refl base)
        fun _ _ _ hends => .here hends
  | var hnew hvalue => exact h.varDecl htogether hnew hvalue
  | block hbody => exact h.block htogether hbody
  | ifElse hcondition hTrue hnested hFalse hnested' =>
      exact h.ifElse htogether hcondition hTrue hnested hFalse hnested'
  | whileLoop hcondition hbody hnested => exact h.whileLoop htogether hcondition hbody hnested
  | breakLoop => exact .here (.broken (.refl _ _ _) htogether.agrees)
  | @returnWith _ keyword value hvalue =>
      cases value with
      | none => exact .here (.returned (.refl _ _ _) htogether.agrees .nil)
      | some value =>
          rw [execute]
          refine h.part htogether (hvalue value rfl) .returning (fun _ _ _ => ⟨1, rfl⟩)
            fun hlater htogether' halike => ?_
          exact .here (.returned hlater htogether'.agrees halike)
  | function hnew hfunction => exact follows_functionDecl htogether hnew hfunction
  | classDecl hnew habove hmethods => exact follows_classDecl htogether hnew habove hmethods

end Forms

/-! ### All of it -/

/-- **The machine follows the reference**, with as much fuel as there is. -/
theorem faithful (clock : Nat → Float) (r : Resolution) (fuel : Nat) : Faithful clock r fuel := by
  induction fuel with
  | zero =>
      refine ⟨fun _ _ => ?_, fun _ _ => ?_⟩
      · rw [evaluate_zero]
        exact .outOfFuel rfl
      · rw [execute_zero]
        exact .outOfFuel rfl
  | succ fuel ih => exact ⟨fun htogether he => ih.expr_succ htogether he,
      fun htogether hs => ih.stmt_succ htogether hs⟩

end Lox.Lexical
