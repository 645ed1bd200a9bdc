/-
Statements one after the other, and calls.

What the machine does with one expression or statement, as far as some fuel lets the
reference follow it, carries over to rows of statements, to rows of arguments, and to the
bodies of functions.  All that a call leaves behind is a value.  Its cells are in the frame
of its parameters and in newer ones.
-/
import Lox.Proofs.Lexical.Following

namespace Lox.Lexical

open Scope
open Machine (State Pending Control Completion Answer)

/-- The frames from which on a statement can have new cells. -/
def reach (s : Stmt) (top : Address) : Address :=
  if s.isDeclaration then top else top + 1

/-- A statement has ended, in the same way in both. -/
inductive Ends (base : Base) (bound top : Address) (behind : Scopes) (w : Layout) (m : Memory) :
    Ending → Store → State → Prop
  | normal {w' : Layout} {t' : Store} {m' : Memory} {sink' : Machine.Sink} {visible : Visible}
      (hlater : Later bound w m w' m') (hagrees : Agrees w' t' m' sink')
      (hhere : Here w' m' behind visible top base.env) :
      Ends base bound top behind w m (.normal visible) t' (base.state (.complete .normal) m' sink')
  | broken {w' : Layout} {t' : Store} {m' : Memory} {sink' : Machine.Sink}
      (hlater : Later bound w m w' m') (hagrees : Agrees w' t' m' sink') :
      Ends base bound top behind w m .broken t' (base.state (.complete .broken) m' sink')
  | returned {w' : Layout} {t' : Store} {m' : Memory} {sink' : Machine.Sink} {v : Value Visible}
      {v' : Value} (hlater : Later bound w m w' m') (hagrees : Agrees w' t' m' sink')
      (halike : Alike w' v v') :
      Ends base bound top behind w m (.returned v) t'
        (base.state (.complete (.returned v')) m' sink')

/-- With so much fuel for the reference, the machine follows it through every expression and
every statement that is resolved. -/
structure Faithful (clock : Nat → Float) (r : Resolution) (fuel : Nat) : Prop where
  expr : ∀ {base : Base} {w : Layout} {t : Store} {m : Memory} {sink : Machine.Sink}
    {scopes : Scopes} {visible : Visible} {top : Address} {e : Expr},
    Together r w t m sink scopes visible top base.env → ResolvedExpr r scopes e →
    Follows clock r fuel base (Gives base (top + 1) w m) (base.state (.evaluate e) m sink)
      (evaluate clock fuel base.depth visible e t)
  stmt : ∀ {base : Base} {w : Layout} {t : Store} {m : Memory} {sink : Machine.Sink}
    {scopes : Scopes} {visible : Visible} {top : Address} {s : Stmt},
    Together r w t m sink scopes visible top base.env → ResolvedStmt r scopes s →
    Follows clock r fuel base (Ends base (reach s top) top (scopes.declare s) w m)
      (base.state (.execute s) m sink) (execute clock fuel base.depth visible s t)

section Parts

variable {clock : Nat → Float} {r : Resolution} {fuel : Nat} {α β : Type} {base : Base}
  {bound top : Address} {behind scopes : Scopes} {w w₀ : Layout} {t : Store} {m m₀ : Memory}
  {sink : Machine.Sink} {visible : Visible} {control : Control}
  {goal : β → Store → State → Prop}

theorem Ends.since {ending : Ending} {s : State} (h : Ends base bound top behind w m ending t s)
    (hlater : Later bound w₀ m₀ w m) : Ends base bound top behind w₀ m₀ ending t s := by
  cases h with
  | normal hlater' hagrees hhere => exact .normal (hlater.trans hlater') hagrees hhere
  | broken hlater' hagrees => exact .broken (hlater.trans hlater') hagrees
  | returned hlater' hagrees halike => exact .returned (hlater.trans hlater') hagrees halike

/-- A part of something larger: its value goes to the task that waits for it. -/
theorem Faithful.part (h : Faithful clock r fuel) {e : Expr} {f : Value Visible → Action β}
    (htogether : Together r w t m sink scopes visible top base.env) (he : ResolvedExpr r scopes e)
    (task : Pending) (hpasses : Passes clock r (base.push task) base)
    (hnext : ∀ {w' t' m' sink' v v'}, Later (top + 1) w m w' m' →
      Together r w' t' m' sink' scopes visible top base.env → Alike w' v v' →
      Follows clock r fuel base goal
        (Machine.resume ⟨r.locals, clock⟩ (base.state (.value v') m' sink') v' task) (f v t')) :
    Follows clock r fuel base goal ((base.state control m sink).evaluating task e)
      ((evaluate clock fuel base.depth visible e >>= f) t) := by
  have hvalue : Follows clock r fuel (base.push task) (Gives (base.push task) (top + 1) w m)
      ((base.push task).state (.evaluate e) m sink) (evaluate clock fuel base.depth visible e t) :=
    h.expr htogether he
  refine hvalue.bind hpasses fun v t' s hgives => ?_
  cases hgives with
  | intro hlater hagrees halike =>
      exact .skip (hnext hlater (htogether.later hlater hagrees) halike)

/-! ### Rows of statements -/

theorem Faithful.stmts (h : Faithful clock r fuel) {body : List Stmt} :
    ∀ {w : Layout} {t : Store} {m : Memory} {sink : Machine.Sink} {scopes : Scopes}
      {visible : Visible}, Together r w t m sink scopes visible top base.env →
      ResolvedStmts r scopes body →
      Follows clock r fuel base (Ends base top top (body.foldl Scopes.declare scopes) w m)
        ((base.push (.sequence body)).state (.complete .normal) m sink)
        (executeAll (execute clock fuel base.depth) visible body t) := by
  induction body with
  | nil =>
      intro w t m sink scopes visible htogether _
      exact .skip (.here (.normal (.refl _ _ _) htogether.agrees htogether.here))
  | cons s rest ih =>
      intro w t m sink scopes visible htogether hbody
      cases hbody with
      | cons hs hrest =>
      have hfirst : Follows clock r fuel (base.push (.sequence rest))
          (Ends (base.push (.sequence rest)) (reach s top) top (scopes.declare s) w m)
          ((base.push (.sequence rest)).state (.execute s) m sink)
          (execute clock fuel base.depth visible s t) := h.stmt htogether hs
      have hreach : top ≤ reach s top := by
        unfold reach
        split
        · exact Nat.le_refl _
        · exact Nat.le_succ _
      refine .skip (hfirst.bind (fun _ _ _ => ⟨1, rfl⟩) fun ending t' s' hends => ?_)
      cases hends with
      | normal hlater hagrees hhere =>
          have hrest := ih ⟨hlater.resolution.trans htogether.resolution, hagrees, hhere⟩ hrest
          exact hrest.imp fun _ _ _ hends => hends.since (hlater.mono hreach)
      | broken hlater hagrees => exact .skip (.here (.broken (hlater.mono hreach) hagrees))
      | returned hlater hagrees halike =>
          exact .skip (.here (.returned (hlater.mono hreach) hagrees halike))

/-! ### Calls -/

theorem entries_alike {arguments : List (Value Visible)} {arguments' : List Value}
    (names : List String) (h : List.Forall₂ (Alike w) arguments arguments') :
    List.Forall₂ (EntryAlike w) (names.zip arguments) (names.zip arguments') := by
  induction names generalizing arguments arguments' with
  | nil => exact .nil
  | cons name rest ih =>
      cases h with
      | nil => exact .nil
      | cons hv hrest => exact .cons ⟨rfl, hv⟩ (ih hrest)

theorem argumentFrame_eq (params : List Token) (arguments : List Value) :
    Machine.argumentFrame params arguments
      = ((params.map Token.lexeme).zip arguments).foldl
          (fun (contents : Bindings Value) e => contents.insert e.1 e.2) [] := by
  rw [List.zip_map_left, List.foldl_map]
  rfl

theorem paramNames_eq {params : List Token} {row : List (String × α)}
    (h : row.map Prod.fst = params.map Token.lexeme) :
    paramNames params = row.foldl (fun (names : Names) e => names.insert e.1 true) [] := by
  have hparams : paramNames params
      = (params.map Token.lexeme).foldl (fun (names : Names) name => names.insert name true) [] := by
    rw [List.foldl_map]
    rfl
  rw [hparams, ← h, List.foldl_map]

/-- The body of a function in a frame of its own; what happens then depends on the value that
is returned, or on what the call was made for. -/
theorem Faithful.invoked (h : Faithful clock r fuel) {closure : Closure Visible}
    {closure' : Closure} {arguments : List (Value Visible)} {arguments' : List Value}
    (answer : Answer) {f : Value Visible → Action β} (hresolution : w.resolution = r)
    (hagrees : Agrees w t m sink) (hclosure : FunctionAlike w closure closure')
    (harguments : List.Forall₂ (Alike w) arguments arguments')
    (hlength : closure.declaration.params.length = arguments.length)
    (hnext : ∀ {w' t' m' sink' v c}, Later m.frames.size w m w' m' → Agrees w' t' m' sink' →
      Alike w' v (Answer.value m' c .returned) →
      Follows clock r fuel base goal (base.state (.value (answer.value m' c)) m' sink') (f v t')) :
    Follows clock r fuel base goal
      (Machine.enter (base.state control m sink) closure' arguments' answer)
      ((invoke (execute clock fuel (base.depth + 1)) closure arguments >>= f) t) := by
  obtain ⟨scopes, hsees, hresolved, -⟩ := hclosure.shown
  rw [hresolution, ← hclosure.declaration] at hresolved
  have hdeclaration := hclosure.declaration
  obtain ⟨⟨name, params, body⟩, env, isInitializer⟩ := closure
  obtain ⟨_, env', isInitializer'⟩ := closure'
  obtain rfl : _ = FunctionDecl.mk name params body := hdeclaration.symm
  cases hresolved with
  | mk hdistinct _ hbody =>
  have hnames : ((params.map Token.lexeme).zip arguments).map Prod.fst = params.map Token.lexeme :=
    List.map_fst_zip (by rw [List.length_map]; exact Nat.le_of_eq hlength)
  obtain ⟨w₁, t₁, visible, hbind, hlater₁, hagrees₁, hhere₁⟩ :=
    hsees.open_with hagrees (entries_alike (params.map Token.lexeme) harguments)
      (by rwa [hnames])
  rw [← argumentFrame_eq] at hlater₁ hagrees₁ hhere₁
  rw [← paramNames_eq hnames] at hhere₁
  have hbody' : Follows clock r fuel
      (Base.mk (.leaveCall base.env answer :: base.pending) (m.frames.size :: env') (base.depth + 1))
      (Ends (Base.mk (.leaveCall base.env answer :: base.pending) (m.frames.size :: env')
        (base.depth + 1)) m.frames.size m.frames.size
        (body.foldl Scopes.declare (paramNames params :: scopes)) w₁
        (m.newFrame (Machine.argumentFrame params arguments')).2)
      (Machine.enter (base.state control m sink)
        ⟨⟨name, params, body⟩, env', isInitializer'⟩ arguments' answer)
      (executeAll (execute clock fuel (base.depth + 1)) visible body t₁) :=
    h.stmts ⟨hlater₁.resolution.trans hresolution, hagrees₁, hhere₁⟩ hbody
  rw [invoke, bind_assoc, bind_of_done hbind, bind_assoc]
  refine hbody'.bind (fun _ _ _ => ⟨1, rfl⟩) fun ending t' s hends => ?_
  cases hends with
  | normal hlater hagrees _ =>
      exact .skip (hnext (hlater₁.trans hlater) hagrees .nil)
  | broken hlater hagrees =>
      exact .skip (hnext (hlater₁.trans hlater) hagrees .nil)
  | returned hlater hagrees halike =>
      exact .skip (hnext (hlater₁.trans hlater) hagrees halike)

/-- What `this` means to a bound initializer. -/
theorem FunctionAlike.receiver {closure : Closure Visible} {closure' : Closure}
    (h : FunctionAlike w closure closure') (hinitializer : closure'.isInitializer)
    (hagrees : Agrees w t m sink) :
    Alike w ((t.value? (closure.env.meaning "this")).getD .nil)
      ((m.readAt? closure'.env 0 "this").getD .nil) := by
  obtain ⟨scopes, hsees, -, hthis⟩ := h.shown
  obtain ⟨a, ha, hstands⟩ := hsees.stands_bound (hthis hinitializer)
  have hvalue := hagrees.values _ _ _ hstands
  simp only [Memory.readAt?, ha]
  generalize t.value? (closure.env.meaning "this") = found at hvalue ⊢
  generalize (m.frame a).get? "this" = found' at hvalue ⊢
  cases hvalue with
  | none => exact .nil
  | some halike => exact halike

/-- Making an instance, and its initializer. -/
theorem Faithful.constructed (h : Faithful clock r fuel) {class_ : Class Visible} {class_' : Class}
    {arguments : List (Value Visible)} {arguments' : List Value} (hresolution : w.resolution = r)
    (hagrees : Agrees w t m sink) (hbound : bound ≤ m.frames.size)
    (hclass : ClassAlike w class_ class_') (harguments : List.Forall₂ (Alike w) arguments arguments')
    (hlength : class_.arity = arguments.length) :
    Follows clock r fuel base (Gives base bound w m)
      (Machine.construct (base.state control m sink) class_' arguments')
      (construct (execute clock fuel (base.depth + 1)) class_ arguments t) := by
  have hobject : newObject class_ t
      = (.done (.object m.fields.size class_), { t with fields := t.fields.push [] }) := by
    rw [newObject, hagrees.instances]
  have hagrees₁ := hagrees.newObject
  have halike : Alike w (.object m.fields.size class_) (.object m.fields.size class_') :=
    .object _ hclass
  have hfind := hclass.find? initializerName
  rw [construct, bind_of_done hobject]
  unfold Machine.construct
  rw [Class.arity] at hlength
  dsimp only [Base.state, Memory.newObject]
  generalize class_.find? initializerName = initializer at hfind hlength ⊢
  generalize class_'.find? initializerName = initializer' at hfind ⊢
  cases hfind with
  | none => exact .here (.intro (.same rfl) hagrees₁ halike)
  | @some initializer initializer' hinitializer =>
      obtain ⟨w₁, t₁, closure, hbind, hlater, hagrees₂, hclosure⟩ :=
        hinitializer.bind halike hagrees₁
      have hdeclaration : closure.declaration = initializer.declaration := by
        rw [hclosure.declaration, hinitializer.declaration]
        rfl
      dsimp only
      rw [bind_of_done hbind]
      refine h.invoked (.fixed (.object m.fields.size class_')) ?_ hagrees₂ hclosure ?_ ?_ ?_
      · exact hlater.resolution.trans hresolution
      · exact harguments.imp fun _ _ hv => hv.extend hlater.extends
      · rw [hdeclaration]
        exact hlength
      · intro w' t' m' sink' v c hlater' hagrees' _
        have hsince : Later m.frames.size w m w' m' := by
          have hframes := hlater'.mono (hlater.size)
          exact Later.trans ⟨hlater.resolution, hlater.slots, hlater.size, hlater.only⟩ hframes
        exact .here (.intro (hsince.mono hbound) hagrees' (halike.extend hsince.extends))

/-- Calling a value. -/
theorem Faithful.called (h : Faithful clock r fuel) {callee : Value Visible} {callee' : Value}
    {paren : Token} {arguments : List (Value Visible)} {arguments' : List Value}
    (hresolution : w.resolution = r) (hagrees : Agrees w t m sink) (hbound : bound ≤ m.frames.size)
    (hcallee : Alike w callee callee') (harguments : List.Forall₂ (Alike w) arguments arguments') :
    Follows clock r fuel base (Gives base bound w m)
      (Machine.call ⟨r.locals, clock⟩ (base.state control m sink) callee' paren arguments')
      (call clock (execute clock fuel (base.depth + 1)) base.depth callee paren arguments t) := by
  have hfails : ∀ {cause : Failure.Cause}, Follows clock r fuel base (Gives base bound w m)
      ((base.state control m sink).failing paren cause) (.failed ⟨paren, cause⟩, t) :=
    .fail hresolution hagrees
  unfold Machine.call call
  rw [hcallee.arity?, harguments.length_eq]
  cases harity : Machine.arity? callee' with
  | none => exact hfails
  | some arity =>
      dsimp only
      by_cases hcount : arity ≠ arguments'.length
      · rw [if_pos hcount, if_pos hcount]
        exact hfails
      rw [if_neg hcount, if_neg hcount, show (base.state control m sink).depth = base.depth from rfl]
      by_cases hdepth : Machine.maxDepth ≤ base.depth
      · rw [if_pos hdepth, if_pos hdepth]
        exact hfails
      rw [if_neg hdepth, if_neg hdepth]
      have hlength : arity = arguments.length := by
        rw [harguments.length_eq]
        exact not_not.mp hcount
      cases hcallee with
      | @function identity closure closure' hclosure =>
          obtain rfl : closure'.declaration.params.length = arity := Option.some.inj harity
          rw [← hclosure.declaration] at hlength
          refine h.invoked _ hresolution hagrees hclosure harguments hlength
            fun {w' t' m' sink' v c} hlater hagrees' hreturned => ?_
          by_cases hinitializer : closure'.isInitializer
          · rw [if_pos hinitializer, if_pos (hclosure.isInitializer.trans hinitializer)]
            have hthis := (hclosure.extend hlater.extends).receiver hinitializer hagrees'
            exact .here (.intro (hlater.mono hbound) hagrees' hthis)
          · rw [if_neg hinitializer, if_neg (by rwa [hclosure.isInitializer])]
            exact .here (.intro (hlater.mono hbound) hagrees' hreturned)
      | classValue hclass =>
          refine h.constructed hresolution hagrees hbound hclass harguments ?_
          rw [hclass.arity, ← hlength]
          exact Option.some.inj harity
      | clock =>
          have hgives : Gives base bound w m (.number (clock t.readings))
              { t with readings := t.readings + 1 }
              (base.state (.value (.number (clock m.readings)))
                { m with readings := m.readings + 1 } sink) :=
            .intro (.same rfl) hagrees.readClock (by rw [hagrees.readings]; exact .number _)
          exact .here hgives
      | _ => cases harity

/-- The call, or the next argument if there is one. -/
def nextArgument (clock : Nat → Float) (r : Resolution) (s : State) (callee : Value) (paren : Token)
    (before : List Value) : List Expr → State
  | [] => Machine.call ⟨r.locals, clock⟩ s callee paren before
  | next :: rest => s.evaluating (.argument callee paren before rest) next

/-- The arguments that are left, and then the call. -/
theorem Faithful.arguments (h : Faithful clock r fuel) {callee : Value Visible} {callee' : Value}
    {paren : Token} {rest : List Expr} :
    ∀ {w : Layout} {t : Store} {m : Memory} {sink : Machine.Sink} {control : Control}
      {before : List (Value Visible)} {before' : List Value},
      Together r w t m sink scopes visible top base.env → Alike w callee callee' →
      List.Forall₂ (Alike w) before before' → (∀ e ∈ rest, ResolvedExpr r scopes e) →
      Follows clock r fuel base (Gives base (top + 1) w m)
        (nextArgument clock r (base.state control m sink) callee' paren before' rest)
        ((evaluateAll (evaluate clock fuel base.depth visible) rest >>= fun vs =>
          call clock (execute clock fuel (base.depth + 1)) base.depth callee paren (before ++ vs))
          t) := by
  induction rest with
  | nil =>
      intro w t m sink control before before' htogether hcallee hbefore _
      show Follows clock r fuel base (Gives base (top + 1) w m)
        (Machine.call ⟨r.locals, clock⟩ (base.state control m sink) callee' paren before')
        (call clock (execute clock fuel (base.depth + 1)) base.depth callee paren (before ++ []) t)
      rw [List.append_nil]
      exact h.called htogether.resolution htogether.agrees htogether.here.size hcallee hbefore
  | cons next rest ih =>
      intro w t m sink control before before' htogether hcallee hbefore hrest
      rw [evaluateAll, bind_assoc]
      refine h.part htogether (hrest next List.mem_cons_self) (.argument callee' paren before' rest)
        (fun _ _ _ => ⟨1, rfl⟩) fun {w' t' m' sink' v v'} hlater htogether' halike => ?_
      have hbefore' : List.Forall₂ (Alike w') (before ++ [v]) (before' ++ [v']) :=
        List.rel_append (hbefore.imp fun _ _ hv => hv.extend hlater.extends) (.cons halike .nil)
      have hresume : ∀ s : State, Machine.resume ⟨r.locals, clock⟩ s v'
          (.argument callee' paren before' rest)
            = nextArgument clock r s callee' paren (before' ++ [v']) rest := by
        intro s
        cases rest <;> rfl
      have hnext : Follows clock r fuel base (Gives base (top + 1) w' m')
          (nextArgument clock r (base.state (.value v') m' sink') callee' paren (before' ++ [v']) rest)
          _ :=
        ih htogether' (hcallee.extend hlater.extends) hbefore'
          fun e he => hrest e (List.mem_cons_of_mem _ he)
      simp only [List.append_assoc, List.singleton_append] at hnext
      rw [hresume, bind_assoc]
      exact hnext.imp fun _ _ _ hgives => hgives.since hlater

end Parts

end Lox.Lexical
