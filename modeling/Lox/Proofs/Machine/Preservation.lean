/-
Every step keeps everything in order.

One lemma for each kind of step says that the next state is in order; most of them
change the control and the stack only.  Where the memory changes, it grows, and what is
pending still waits for the same things.
-/
import Lox.Proofs.Machine.Outcomes
import Lox.Proofs.Machine.Waiting

namespace Lox.Machine

open Scope

variable {setting : Setting} {r : Resolution} {s : State} {scopes : Scopes} {top : Address}

/-! ### Names -/

section Names

variable {m : Memory} {env : Env}

/-- A local occurrence that may be read finds its frame, and its name in there. -/
theorem reads_local {occurrence : Occurrence} {distance : Nat} (h : Matches m scopes env)
    (hrefers : r.Refers scopes occurrence)
    (hread : scopes.isInitializing occurrence.name.lexeme = false)
    (hlocal : r.locals[occurrence.id]? = some distance) :
    ∃ a, env[distance]? = some a ∧ (m.frame a).binds occurrence.name.lexeme :=
  h.bound _ _ (hrefers.distance.symm.trans hlocal) hread

/-- Where `this` is in scope it is bound to an instance. -/
theorem reads_this {distance : Nat} (h : Matches m scopes env) (hm : m.Scoped r)
    (hthis : scopes.distance? "this" = some distance)
    (hread : scopes.isInitializing "this" = false) :
    ∃ a address class_, env[distance]? = some a ∧
      (m.frame a).get? "this" = some (.object address class_) := by
  obtain ⟨a, ha, hbinds⟩ := h.bound _ _ hthis hread
  obtain ⟨v, hv⟩ := Option.isSome_iff_exists.mp hbinds
  obtain ⟨address, class_, rfl⟩ := (hm.frames a "this" v hv).2.1 rfl
  exact ⟨a, address, class_, ha, hv⟩

/-- Where `super` is in scope it is bound to a class. -/
theorem reads_super {distance : Nat} (h : Matches m scopes env) (hm : m.Scoped r)
    (hsuper : scopes.distance? "super" = some distance)
    (hread : scopes.isInitializing "super" = false) :
    ∃ a class_, env[distance]? = some a ∧
      (m.frame a).get? "super" = some (.classValue class_) := by
  obtain ⟨a, ha, hbinds⟩ := h.bound _ _ hsuper hread
  obtain ⟨v, hv⟩ := Option.isSome_iff_exists.mp hbinds
  obtain ⟨class_, rfl⟩ := (hm.frames a "super" v hv).2.2 rfl
  exact ⟨a, class_, ha, hv⟩

theorem readAt?_eq {distance : Nat} {a : Address} (name : String)
    (ha : env[distance]? = some a) : m.readAt? env distance name = (m.frame a).get? name := by
  rw [Memory.readAt?, ha]

end Names

theorem sound_of_failing {token : Token} {cause : Failure.Cause} (hm : s.memory.Scoped r)
    (hcurrent : Current s.memory scopes top s.env) (hpending : Falls r s.memory top s.pending)
    (houtside : cause ≠ .superOutsideClass) (hbound : cause ≠ .superNotBound) :
    (s.failing token cause).Sound r :=
  ⟨hm, scopes, top, hcurrent, .fail houtside hbound hpending⟩

theorem lookup_sound {occurrence : Occurrence} (hm : s.memory.Scoped r)
    (hcurrent : Current s.memory scopes top s.env)
    (hpending : WaitsValue r s.memory scopes top s.pending) :
    (lookup setting s occurrence).Sound r := by
  unfold lookup
  dsimp only
  split
  · rename_i v hfound
    have hv : v.Scoped r s.memory := by
      split at hfound
      · exact (hm.readAt hfound).1
      · exact hm.read hfound
    exact ⟨hm, scopes, top, hcurrent, .value hv hpending⟩
  · exact sound_of_failing hm hcurrent (.value hpending) (by simp) (by simp)

/-- The frame that a variable is found in binds it. -/
theorem binds_of_locate {target : Occurrence} {a : Address}
    (h : locate setting s target = some a) : (s.memory.frame a).binds target.name.lexeme := by
  unfold locate at h
  dsimp only at h
  split at h
  · unfold Memory.holderAt? at h
    split at h
    · split at h
      · rename_i hbinds
        obtain rfl := Option.some.inj h
        exact hbinds
      · exact absurd h (by simp)
    · exact absurd h (by simp)
  · unfold Memory.holder? at h
    simpa using List.find?_some h

theorem assign_sound {target : Occurrence} {v : Value} (hm : s.memory.Scoped r)
    (hcurrent : Current s.memory scopes top s.env) (hname : Ordinary target.name.lexeme)
    (hv : v.Scoped r s.memory) (hpending : WaitsValue r s.memory scopes top s.pending) :
    (assign setting s target v).Sound r := by
  unfold assign
  split
  · rename_i a hfound
    have hgrows : s.memory.Grows none (s.memory.bindAt a target.name.lexeme v) :=
      Memory.grows_bindAt_of_binds (binds_of_locate hfound)
    have hv' := hv.grow hgrows
    exact ⟨hm.bindAt hv' (Value.fits_of_ordinary hname v), scopes, top,
      hcurrent.grow hgrows (by simp), .value hv' (hpending.grow hgrows (by simp))⟩
  · exact sound_of_failing hm hcurrent (.value hpending) (by simp) (by simp)

/-- A method that is taken from an instance goes on as a value. -/
theorem newMethod_sound {closure : Closure} {address : Address} {class_ : Class}
    (hm : s.memory.Scoped r) (hcurrent : Current s.memory scopes top s.env)
    (hmethod : closure.ScopedMethod r s.memory) (hclass : class_.Scoped r s.memory)
    (hpending : WaitsValue r s.memory scopes top s.pending) :
    State.Sound r { s with
      memory := (s.memory.newMethod closure (.object address class_)).2
      control := .value (s.memory.newMethod closure (.object address class_)).1 } := by
  obtain ⟨hgrows, hm', hv⟩ := hmethod.new hm hclass address
  exact ⟨hm', scopes, top, hcurrent.grow hgrows (by simp),
    .value hv (hpending.grow hgrows (by simp))⟩

theorem inheritedMethod_sound {keyword : Occurrence} {method : Token} {distance : Nat}
    (hlocals : setting.locals = r.locals) (hm : s.memory.Scoped r)
    (hcurrent : Current s.memory scopes top s.env) (hname : keyword.name.lexeme = "super")
    (hrefers : r.Refers scopes keyword) (hthis : scopes.distance? "this" = some distance)
    (hsuper : scopes.distance? "super" = some (distance + 1))
    (hpending : WaitsValue r s.memory scopes top s.pending) :
    (inheritedMethod setting s keyword method).Sound r := by
  have hlocal : setting.locals[keyword.id]? = some (distance + 1) := by
    rw [hlocals, hrefers.distance, hname, hsuper]
  obtain ⟨a, superclass, ha, hclass⟩ := reads_super hcurrent.toMatches hm hsuper
    (hpending.not_initializing fun h => h.2 rfl)
  obtain ⟨b, address, class_, hb, hobject⟩ := reads_this hcurrent.toMatches hm hthis
    (hpending.not_initializing fun h => h.1 rfl)
  have hsuperclass : superclass.Scoped r s.memory := (hm.frames a _ _ hclass).1
  have hown : class_.Scoped r s.memory := (hm.frames b _ _ hobject).1
  simp only [inheritedMethod, hlocal, readAt?_eq "super" ha, hclass, Nat.add_sub_cancel,
    readAt?_eq "this" hb, hobject]
  split
  · rename_i closure hfind
    exact newMethod_sound hm hcurrent (hsuperclass.find hfind) hown hpending
  · exact sound_of_failing hm hcurrent (.value hpending) (by simp) (by simp)

theorem Got.sound {v : Value} {name : Token} {t : State} (h : Got s name v t)
    (hm : s.memory.Scoped r) (hcurrent : Current s.memory scopes top s.env)
    (hv : v.Scoped r s.memory) (hpending : WaitsValue r s.memory scopes top s.pending) :
    t.Sound r := by
  cases h with
  | field hfield => exact ⟨hm, scopes, top, hcurrent, .value (hm.fields _ _ _ hfield) hpending⟩
  | method _ hfind => exact newMethod_sound hm hcurrent (Class.Scoped.find hv hfind) hv hpending
  | undefined _ _ | notAnInstance _ =>
      exact sound_of_failing hm hcurrent (.value hpending) (by simp) (by simp)

/-! ### Calls -/

/-- A function is entered with a frame for its parameters. -/
theorem enter_sound {closure : Closure} {arguments : List Value} {answer : Answer}
    (hm : s.memory.Scoped r) (hcurrent : Current s.memory scopes top s.env)
    (hclosure : closure.Scoped r s.memory)
    (hlength : closure.declaration.params.length = arguments.length)
    (harguments : ∀ v ∈ arguments, v.Scoped r s.memory) (hanswer : answer.Scoped r s.memory)
    (hpending : WaitsValue r s.memory scopes top s.pending) :
    (enter s closure arguments answer).Sound r := by
  obtain ⟨⟨name, params, body⟩, env, isInitializer⟩ := closure
  obtain ⟨inside, hmatches, hsettled, hresolved⟩ := hclosure
  cases hresolved with
  | mk _ hparams hbody =>
      have hgrows : s.memory.Grows none (s.memory.newFrame (argumentFrame params arguments)).2 :=
        s.memory.grows_newFrame _
      have hinside : Current (s.memory.newFrame (argumentFrame params arguments)).2
          (paramNames params :: inside) s.memory.frames.size (s.memory.frames.size :: env) := by
        refine hmatches.open hsettled (fun name => binds_argumentFrame hlength) fun name => ?_
        rw [get?_paramNames]
        split <;> simp
      have hm' : (s.memory.newFrame (argumentFrame params arguments)).2.Scoped r := by
        refine hm.newFrame fun name v hv => ?_
        obtain ⟨hmem, param, hparam, rfl⟩ := get?_argumentFrame hv
        exact ⟨harguments v hmem, Value.fits_of_ordinary (hparams param hparam) v⟩
      exact ⟨hm', _, _, hinside, .complete trivial (settled_paramNames params inside)
        (.sequence hbody (.call hcurrent.lt_size (hcurrent.grow hgrows (by simp))
          (hanswer.grow hgrows) (hpending.grow hgrows (by simp))))⟩

theorem Called.sound {callee : Value} {paren : Token} {arguments : List Value} {t : State}
    (h : Called setting s paren arguments callee t) (hm : s.memory.Scoped r)
    (hcurrent : Current s.memory scopes top s.env) (hcallee : callee.Scoped r s.memory)
    (harguments : ∀ v ∈ arguments, v.Scoped r s.memory)
    (hpending : WaitsValue r s.memory scopes top s.pending) : t.Sound r := by
  have hobject : s.memory.Grows none s.memory.newObject.2 := .of_frames rfl
  cases h with
  | refused _ hcause =>
      exact sound_of_failing hm hcurrent (.value hpending) (by cases hcause <;> simp)
        (by cases hcause <;> simp)
  | clock _ =>
      have hgrows : s.memory.Grows none { s.memory with readings := s.memory.readings + 1 } :=
        .of_frames rfl
      exact ⟨hm.of_same rfl rfl, scopes, top, hcurrent.grow hgrows (by simp),
        .value trivial (hpending.grow hgrows (by simp))⟩
  | function h =>
      refine enter_sound hm hcurrent hcallee (Option.some.inj h.arity) harguments ?_ hpending
      split <;> trivial
  | plain _ _ =>
      exact ⟨hm.newObject, scopes, top, hcurrent.grow hobject (by simp),
        .value (Class.Scoped.mono hcallee (.refl r) hobject) (hpending.grow hobject (by simp))⟩
  | @initialized class_ initializer h hfind =>
      have hclass : class_.Scoped r s.memory := hcallee
      obtain ⟨hm', hbound⟩ := ((hclass.find hfind).mono (.refl r) hobject).bind
        hm.newObject (hclass.mono (.refl r) hobject) s.memory.newObject.1
      have hgrows := hobject.trans (Memory.grows_bindMethod none s.memory.newObject.2 initializer
        (.object s.memory.newObject.1 class_))
      have hlength : initializer.declaration.params.length = arguments.length := by
        have harity : class_.arity = arguments.length := Option.some.inj h.arity
        rwa [Class.arity, hfind] at harity
      exact enter_sound hm' (hcurrent.grow hgrows (by simp)) hbound hlength
        (fun v hv => (harguments v hv).grow hgrows) (hclass.mono (.refl r) hgrows)
        (hpending.grow hgrows (by simp))

/-! ### Classes -/

/-- The scopes around the scope of `this` in a class. -/
def aroundThis (scopes : Scopes) (superclass : Option Class) : Scopes :=
  match superclass with
  | none => scopes
  | some _ => superNames :: scopes

/-- The frames in which methods are declared match the scopes around `this`. -/
theorem classEnv_sound {superclass : Option Class} (hm : s.memory.Scoped r)
    (hmatches : Matches s.memory scopes s.env) (hsettled : scopes.Settled)
    (hsuper : ∀ class_ ∈ superclass, class_.Scoped r s.memory) :
    s.memory.Grows none (classEnv s superclass).2.memory ∧
      (classEnv s superclass).2.memory.Scoped r ∧ (aroundThis scopes superclass).Settled ∧
      Matches (classEnv s superclass).2.memory (aroundThis scopes superclass)
        (classEnv s superclass).1 := by
  cases superclass with
  | none => exact ⟨.refl none s.memory, hm, hsettled, hmatches⟩
  | some class_ =>
      refine ⟨s.memory.grows_newFrame _, hm.newFrame fun name v hv => ?_, fun name => ?_,
        (hmatches.open hsettled (fun name => ?_) fun name => ?_).toMatches⟩
      · rw [Bindings.get?] at hv
        split at hv
        · rename_i hname
          obtain rfl := Option.some.inj hv
          subst hname
          exact ⟨hsuper class_ rfl, fun heq => absurd heq (by decide), fun _ => ⟨class_, rfl⟩⟩
        · exact absurd hv (by simp)
      · by_cases hname : "super" = name <;>
          simp [aroundThis, superNames, Scopes.isInitializing, Bindings.get?, hname]
      · by_cases hname : "super" = name <;>
          simp [superNames, Bindings.binds, Bindings.get?, hname]
      · by_cases hname : "super" = name <;> simp [superNames, Bindings.get?, hname]

/-- A class is in order if its own methods are resolved and its superclass is in order. -/
theorem newClass_scoped {m : Memory} {env : Env} {inside : Scopes} {methods : List FunctionDecl}
    {superclass : Option Class} (hmatches : Matches m inside env) (hsettled : inside.Settled)
    (identity : Nat) (name : String)
    (hmethods : ∀ f ∈ methods, ResolvedFunction r (thisNames :: inside) f)
    (hsuper : ∀ class_ ∈ superclass, class_.Scoped r m) :
    Class.Scoped r m ⟨⟨identity, name, methodTable env methods⟩,
      (superclass.map Class.layers).getD []⟩ := by
  intro layer hlayer method closure hclosure
  rcases List.mem_cons.mp hlayer with rfl | hlayer
  · obtain ⟨f, hf, rfl⟩ := get?_methodTable hclosure
    exact ⟨inside, hmatches, hsettled, hmethods f hf⟩
  · cases superclass with
    | none => exact absurd hlayer (by simp)
    | some class_ => exact hsuper class_ rfl layer hlayer method closure hclosure

theorem Finished.sound {name : Token} {superclass : Option Class} {methods : List FunctionDecl}
    {t : State} (h : Finished s name superclass methods t) (hm : s.memory.Scoped r)
    (hcurrent : Current s.memory scopes top s.env)
    (hsettled : scopes.Settled) (hname : Ordinary name.lexeme)
    (hsuper : ∀ class_ ∈ superclass, class_.Scoped r s.memory)
    (hmethods : ∀ f ∈ methods,
      ResolvedFunction r (thisNames :: aroundThis scopes superclass) f)
    (hpending : Waits r s.memory scopes top s.pending) : t.Sound r := by
  obtain ⟨hgrows, hm', haround, hmatches⟩ :=
    classEnv_sound hm hcurrent.toMatches hsettled hsuper
  let m' := (classEnv s superclass).2.memory
  have hgrows' : s.memory.Grows none m'.newIdentity.2 := hgrows.trans (.of_frames rfl)
  have hidentity : m'.newIdentity.2.Scoped r := hm'.of_same rfl rfl
  have hmatches' : Matches m'.newIdentity.2 (aroundThis scopes superclass) (classEnv s superclass).1 :=
    ⟨hmatches.framed, hmatches.bound⟩
  have hclass := newClass_scoped hmatches' haround m'.newIdentity.1 name.lexeme hmethods
    fun class_ hclass => (hsuper class_ hclass).mono (.refl r) hgrows'
  cases h with
  | done a hholder =>
      have hbinds : (m'.newIdentity.2.frame a).binds name.lexeme := by
        unfold Memory.holder? at hholder
        simpa using List.find?_some hholder
      -- The variable of the class is bound already, so nothing is added to any frame.
      have hwrite : ∀ v, m'.newIdentity.2.Grows none (m'.newIdentity.2.bindAt a name.lexeme v) :=
        fun v => Memory.grows_bindAt_of_binds hbinds
      have hall := fun v => hgrows'.trans (hwrite v)
      exact ⟨hidentity.bindAt (hclass.mono (.refl r) (hwrite _)) (Value.fits_of_ordinary hname _),
        scopes, top, hcurrent.grow (hall _) (by simp),
        .complete trivial hsettled (hpending.grow (hall _) (by simp))⟩
  | failed =>
      exact sound_of_failing hidentity (hcurrent.grow hgrows' (by simp))
        (.statement (hpending.grow hgrows' (by simp))) (by simp) (by simp)

/-! ### Expressions -/

theorem evaluate_sound {e : Expr} (hlocals : setting.locals = r.locals) (hm : s.memory.Scoped r)
    (hcurrent : Current s.memory scopes top s.env) (h : ResolvedExpr r scopes e)
    (hpending : WaitsValue r s.memory scopes top s.pending) : (evaluate setting s e).Sound r := by
  cases h with
  | literal => exact ⟨hm, scopes, top, hcurrent, .value (Value.scoped_ofLiteral _ _ _) hpending⟩
  | group h => exact ⟨hm, scopes, top, hcurrent, .evaluate h hpending⟩
  | unary h => exact ⟨hm, scopes, top, hcurrent, .evaluate h (.unary hpending)⟩
  | binary hleft hright =>
      exact ⟨hm, scopes, top, hcurrent, .evaluate hleft (.leftOperand hright hpending)⟩
  | logical hleft hright =>
      exact ⟨hm, scopes, top, hcurrent, .evaluate hleft (.logical hright hpending)⟩
  | conditional hcondition hTrue hFalse =>
      exact ⟨hm, scopes, top, hcurrent, .evaluate hcondition (.choice hTrue hFalse hpending)⟩
  | use => exact lookup_sound hm hcurrent hpending
  | assign hrefers hname hvalue =>
      exact ⟨hm, scopes, top, hcurrent, .evaluate hvalue (.assignment hrefers hname hpending)⟩
  | call hcallee harguments =>
      exact ⟨hm, scopes, top, hcurrent, .evaluate hcallee (.callee harguments hpending)⟩
  | get h => exact ⟨hm, scopes, top, hcurrent, .evaluate h (.property hpending)⟩
  | set hobject hvalue =>
      exact ⟨hm, scopes, top, hcurrent, .evaluate hobject (.setTarget hvalue hpending)⟩
  | this => exact lookup_sound hm hcurrent hpending
  | super hname hrefers hthis hsuper =>
      exact inheritedMethod_sound hlocals hm hcurrent hname hrefers hthis hsuper hpending

/-! ### Statements -/

theorem execute_sound {stmt : Stmt} (hm : s.memory.Scoped r)
    (hcurrent : Current s.memory scopes top s.env) (h : ResolvedStmt r scopes stmt)
    (hsettled : scopes.Settled)
    (hpending : Waits r s.memory (scopes.declare stmt) top s.pending) :
    (execute s stmt).Sound r := by
  cases h with
  | expression h =>
      exact ⟨hm, scopes, top, hcurrent, .evaluate h (.discard hsettled hpending)⟩
  | print h => exact ⟨hm, scopes, top, hcurrent, .evaluate h (.print hsettled hpending)⟩
  | @var _ name initializer hnew h =>
      have hdeclared := hcurrent.declare hnew.1
      cases initializer with
      | none =>
          obtain ⟨hgrows, hdefined⟩ := hdeclared.define .nil
          exact ⟨hm.define trivial (Value.fits_of_ordinary hnew.2 _), _, top, hdefined,
            .complete trivial (hsettled.mark _) (hpending.grow hgrows (by simp))⟩
      | some value =>
          exact ⟨hm, _, top, hdeclared,
            .evaluate (h value rfl) (.define hsettled hnew.2 hpending)⟩
  | block h =>
      have hgrows : s.memory.Grows none (s.memory.newFrame []).2 := s.memory.grows_newFrame []
      have hinside : Current (s.memory.newFrame []).2 ([] :: scopes) s.memory.frames.size
          (s.memory.frames.size :: s.env) :=
        hcurrent.toMatches.open hsettled (fun _ => rfl) (fun _ => by simp)
      exact ⟨hm.newFrame (by simp), _, _, hinside, .complete trivial (Scopes.settled_push scopes)
        (.sequence h (.block hcurrent.lt_size (hcurrent.grow hgrows (by simp)) hsettled
          (hpending.grow hgrows (by simp))))⟩
  | ifElse hcondition hTrue hnested hFalse hnested' =>
      exact ⟨hm, scopes, top, hcurrent,
        .evaluate hcondition (.branch hsettled hTrue hnested hFalse hnested' hpending)⟩
  | whileLoop hcondition hbody hnested =>
      exact ⟨hm, scopes, top, hcurrent,
        .evaluate hcondition (.loopTest hsettled hcondition hbody hnested hpending)⟩
  | breakLoop => exact ⟨hm, scopes, top, hcurrent, .complete trivial hsettled hpending⟩
  | @returnWith _ keyword value h =>
      cases value with
      | none => exact ⟨hm, scopes, top, hcurrent, .complete trivial hsettled hpending⟩
      | some value =>
          exact ⟨hm, scopes, top, hcurrent, .evaluate (h value rfl) (.returning hsettled hpending)⟩
  | @function _ declaration hnew h =>
      have hsame : ∀ target, s.memory.Grows target s.memory.newIdentity.2 := fun _ => .of_frames rfl
      have hdeclared := (hcurrent.declare hnew.1).grow (hsame none) (by simp)
      obtain ⟨hgrows, hdefined⟩ :=
        hdeclared.define (.function s.memory.newIdentity.1 ⟨declaration, s.env, false⟩)
      have hm' : s.memory.newIdentity.2.Scoped r := hm.of_same rfl rfl
      exact ⟨hm'.define ⟨_, hdefined.toMatches, hsettled.mark _, h⟩
        (Value.fits_of_ordinary hnew.2 _), _, top, hdefined, .complete trivial (hsettled.mark _)
          (hpending.grow ((hsame _).trans hgrows) (by simp))⟩
  | @classDecl _ name superclass methods hnew habove hmethods =>
      obtain ⟨hgrows, hdefined⟩ := (hcurrent.declare hnew.1).define .nil
      have hm' : (s.memory.define s.env name.lexeme .nil).Scoped r :=
        hm.define trivial (Value.fits_of_ordinary hnew.2 _)
      have hpending' : Waits r (s.memory.define s.env name.lexeme .nil)
          (scopes.mark name.lexeme true) top s.pending := hpending.grow hgrows (by simp)
      cases superclass with
      | none =>
          exact (finishClass_finished { s with memory := s.memory.define s.env name.lexeme .nil }
            name none methods).sound hm' hdefined (hsettled.mark _) hnew.2 (by simp) hmethods
              hpending'
      | some occurrence =>
          exact ⟨hm', _, top, hdefined, .evaluate (habove occurrence rfl)
            (.inherit (hsettled.mark _) hnew.2 hmethods hpending')⟩

/-! ### Values and what waits for them -/

theorem operate_sound {operator : Token} {result : Except Failure.Cause Value}
    (hm : s.memory.Scoped r) (hcurrent : Current s.memory scopes top s.env)
    (hok : ∀ v, result = .ok v → v.Scoped r s.memory)
    (herror : ∀ cause, result = .error cause →
      cause ≠ .superOutsideClass ∧ cause ≠ .superNotBound)
    (hpending : WaitsValue r s.memory scopes top s.pending) :
    (operate s operator result).Sound r := by
  cases result with
  | ok v => exact ⟨hm, scopes, top, hcurrent, .value (hok v rfl) hpending⟩
  | error cause =>
      exact sound_of_failing hm hcurrent (.value hpending) (herror cause rfl).1
        (herror cause rfl).2

theorem resume_sound {v : Value} {task : Pending} (hm : s.memory.Scoped r)
    (hcurrent : Current s.memory scopes top s.env) (hv : v.Scoped r s.memory)
    (h : WaitsValue r s.memory scopes top (task :: s.pending)) :
    (resume setting s v task).Sound r := by
  cases h with
  | unary hbelow =>
      exact operate_sound hm hcurrent (fun w hw => Value.scoped_of_unary hw)
        (fun cause hcause => Value.cause_of_unary hcause) hbelow
  | leftOperand hright hbelow =>
      exact ⟨hm, scopes, top, hcurrent, .evaluate hright (.rightOperand hbelow)⟩
  | rightOperand hbelow =>
      exact operate_sound hm hcurrent (fun w hw => Value.scoped_of_binary hv hw)
        (fun cause hcause => Value.cause_of_binary hcause) hbelow
  | @logical _ _ operator right _ hright hbelow =>
      rcases resume_logical setting s v operator right with hnext | hnext <;> rw [hnext]
      · exact ⟨hm, scopes, top, hcurrent, .value hv hbelow⟩
      · exact ⟨hm, scopes, top, hcurrent, .evaluate hright hbelow⟩
  | choice hTrue hFalse hbelow =>
      refine ⟨hm, scopes, top, hcurrent, .evaluate ?_ hbelow⟩
      split
      · exact hTrue
      · exact hFalse
  | assignment _ hname hbelow => exact assign_sound hm hcurrent hname hv hbelow
  | @callee _ _ paren arguments _ harguments hbelow =>
      cases arguments with
      | nil => exact (call_called setting s v paren []).sound hm hcurrent hv (by simp) hbelow
      | cons first rest =>
          rw [List.forall_mem_cons] at harguments
          exact ⟨hm, scopes, top, hcurrent,
            .evaluate harguments.1 (.argument hv (by simp) harguments.2 hbelow)⟩
  | @argument _ _ callee paren before after _ hcallee hbefore hafter hbelow =>
      have hvalues : ∀ w ∈ before ++ [v], w.Scoped r s.memory := by
        intro w hw
        rcases List.mem_append.mp hw with hw | hw
        · exact hbefore w hw
        · obtain rfl := List.mem_singleton.mp hw
          exact hv
      cases after with
      | nil =>
          exact (call_called setting s callee paren _).sound hm hcurrent hcallee hvalues hbelow
      | cons next rest =>
          rw [List.forall_mem_cons] at hafter
          exact ⟨hm, scopes, top, hcurrent,
            .evaluate hafter.1 (.argument hcallee hvalues hafter.2 hbelow)⟩
  | property hbelow => exact (getProperty_got s v _).sound hm hcurrent hv hbelow
  | setTarget hvalue hbelow =>
      cases v with
      | object address class_ =>
          exact ⟨hm, scopes, top, hcurrent, .evaluate hvalue (.setValue hbelow)⟩
      | _ => exact sound_of_failing hm hcurrent (.value hbelow) (by simp) (by simp)
  | @setValue _ _ address name _ hbelow =>
      have hgrows : s.memory.Grows none (s.memory.setField address name.lexeme v) :=
        .of_frames rfl
      exact ⟨hm.setField address hv, scopes, top, hcurrent.grow hgrows (by simp),
        .value (hv.grow hgrows) (hbelow.grow hgrows (by simp))⟩
  | discard hsettled hbelow =>
      exact ⟨hm, scopes, top, hcurrent, .complete trivial hsettled hbelow⟩
  | @print _ _ keyword _ hsettled hbelow =>
      rcases resume_print setting s v keyword with ⟨_, hnext⟩ | ⟨_, _, hnext⟩ <;> rw [hnext]
      · exact ⟨hm, scopes, top, hcurrent, .complete trivial hsettled hbelow⟩
      · exact sound_of_failing hm hcurrent (.statement hbelow) (by simp) (by simp)
  | @define outer _ name _ hsettled hname hbelow =>
      obtain ⟨hgrows, hdefined⟩ := hcurrent.define v
      exact ⟨hm.define (hv.grow hgrows) (Value.fits_of_ordinary hname v), _, top, hdefined,
        .complete trivial (hsettled.mark _) (hbelow.grow hgrows (by simp))⟩
  | @branch _ _ onTrue onFalse _ hsettled hTrue hnested hFalse hnested' hbelow =>
      have hchosen : ∀ chosen, ResolvedStmt r scopes chosen → chosen.isDeclaration = false →
          State.Sound r { s with control := .execute chosen } := fun chosen h hchosen =>
        ⟨hm, scopes, top, hcurrent,
          .execute h hsettled ((scopes.declare_of_nested hchosen).symm ▸ hbelow)⟩
      rcases resume_branch setting s v onTrue onFalse with
        hnext | ⟨statement, rfl, hnext⟩ | ⟨-, hnext⟩ <;> rw [hnext]
      · exact hchosen onTrue hTrue hnested
      · exact hchosen statement (hFalse statement rfl) (hnested' statement rfl)
      · exact ⟨hm, scopes, top, hcurrent, .complete trivial hsettled hbelow⟩
  | @loopTest _ _ condition body _ hsettled hcondition hbody hnested hbelow =>
      rcases resume_loopTest setting s v condition body with hnext | hnext <;> rw [hnext]
      · exact ⟨hm, scopes, top, hcurrent, .execute hbody hsettled
          ((scopes.declare_of_nested hnested).symm ▸ .loopBody hcondition hbody hnested hbelow)⟩
      · exact ⟨hm, scopes, top, hcurrent, .complete trivial hsettled hbelow⟩
  | returning hsettled hbelow =>
      exact ⟨hm, scopes, top, hcurrent, .complete hv hsettled hbelow⟩
  | @inherit _ _ name superclass methods _ hsettled hname hmethods hbelow =>
      cases v with
      | classValue class_ =>
          have hsuper : ∀ c ∈ some class_, c.Scoped r s.memory := by
            intro c hc
            obtain rfl := Option.some.inj hc
            exact hv
          exact (finishClass_finished s name (some class_) methods).sound hm hcurrent hsettled
            hname hsuper hmethods hbelow
      | _ => exact sound_of_failing hm hcurrent (.statement hbelow) (by simp) (by simp)

/-! ### Ends of statements -/

theorem answer_sound {answer : Answer} {c : Completion} (hm : s.memory.Scoped r)
    (hanswer : answer.Scoped r s.memory) (hc : c.Scoped r s.memory) :
    (answer.value s.memory c).Scoped r s.memory := by
  cases answer with
  | returned =>
      cases c with
      | returned v => exact hc
      | _ => trivial
  | receiver env =>
      show Value.Scoped r s.memory ((s.memory.readAt? env 0 "this").getD .nil)
      cases hread : s.memory.readAt? env 0 "this" with
      | some v => exact (hm.readAt hread).1
      | none => trivial
  | fixed v => exact hanswer

/-- The end of a statement goes on in the same block. -/
theorem unwind_waits {c : Completion} {task : Pending} (hm : s.memory.Scoped r)
    (hcurrent : Current s.memory scopes top s.env) (hc : c.Scoped r s.memory)
    (hsettled : scopes.Settled) (h : Waits r s.memory scopes top (task :: s.pending)) :
    (unwind s c task).Sound r := by
  cases h with
  | @sequence _ _ rest _ h hbelow =>
      have hleave : (s.completing c).Sound r := ⟨hm, scopes, top, hcurrent, .leave hc hbelow⟩
      cases h with
      | nil => cases c <;> exact hleave
      | cons h hrest =>
          cases c with
          | normal => exact ⟨hm, scopes, top, hcurrent, .execute h hsettled (.sequence hrest hbelow)⟩
          | _ => exact hleave
  | loopBody hcondition hbody hnested hbelow =>
      cases c with
      | normal =>
          exact ⟨hm, scopes, top, hcurrent,
            .evaluate hcondition (.loopTest hsettled hcondition hbody hnested hbelow)⟩
      | broken => exact ⟨hm, scopes, top, hcurrent, .complete trivial hsettled hbelow⟩
      | returned v => exact ⟨hm, scopes, top, hcurrent, .complete hc hsettled hbelow⟩
      | failed failure => exact absurd hc id

/-- Leaving a block or a call leads back to where it was entered. -/
theorem unwind_leaves {c : Completion} {task : Pending} (hm : s.memory.Scoped r)
    (hc : c.Scoped r s.memory) (h : Leaves r s.memory top (task :: s.pending)) :
    (unwind s c task).Sound r := by
  cases h with
  | block hlt hcurrent hsettled hbelow =>
      exact ⟨hm, _, _, hcurrent, .complete hc hsettled hbelow⟩
  | call hlt hcurrent hanswer hbelow =>
      have hv := answer_sound hm hanswer hc
      cases c with
      | failed failure => exact absurd hc id
      | _ => exact ⟨hm, _, _, hcurrent, .value hv hbelow⟩

/-- A failure goes through everything. -/
theorem unwind_falls {failure : Failure} {task : Pending} (hm : s.memory.Scoped r)
    (hcurrent : Current s.memory scopes top s.env) (houtside : failure.cause ≠ .superOutsideClass)
    (hbound : failure.cause ≠ .superNotBound) (h : Falls r s.memory top (task :: s.pending)) :
    (unwind s (.failed failure) task).Sound r := by
  have hgoes : Falls r s.memory top s.pending → (s.completing (.failed failure)).Sound r :=
    fun hbelow => ⟨hm, scopes, top, hcurrent, .fail houtside hbound hbelow⟩
  cases h with
  | value h =>
      cases h with
      | unary hbelow | leftOperand _ hbelow | rightOperand hbelow | logical _ hbelow
      | choice _ _ hbelow | assignment _ _ hbelow | callee _ hbelow | argument _ _ _ hbelow
      | property hbelow | setTarget _ hbelow | setValue hbelow => exact hgoes (.value hbelow)
      | discard _ hbelow | print _ hbelow | define _ _ hbelow | branch _ _ _ _ _ hbelow
      | loopTest _ _ _ _ hbelow | returning _ hbelow | inherit _ _ _ hbelow =>
          exact hgoes (.statement hbelow)
  | statement h =>
      cases h with
      | sequence _ hbelow => exact hgoes (.leave hbelow)
      | loopBody _ _ _ hbelow => exact hgoes (.statement hbelow)
  | leave h =>
      cases h with
      | block hlt hcurrent hsettled hbelow =>
          exact ⟨hm, _, _, hcurrent, .fail houtside hbound (.statement hbelow)⟩
      | call hlt hcurrent hanswer hbelow =>
          exact ⟨hm, _, _, hcurrent, .fail houtside hbound (.value hbelow)⟩

/-! ### Runs -/

/-- One step keeps everything in order. -/
theorem step_sound (hlocals : setting.locals = r.locals) (h : s.Sound r) :
    (step setting s).Sound r := by
  obtain ⟨hm, scopes, top, hcurrent, hproceeds⟩ := h
  obtain ⟨control, pending, env, depth, memory, sink⟩ := s
  cases hproceeds with
  | evaluate h hpending => exact evaluate_sound hlocals hm hcurrent h hpending
  | value hv hpending =>
      cases pending with
      | nil => exact nomatch hpending
      | cons task below => exact resume_sound hm hcurrent hv hpending
  | execute h hsettled hpending => exact execute_sound hm hcurrent h hsettled hpending
  | complete hc hsettled hpending =>
      cases pending with
      | nil => exact nomatch hpending
      | cons task below => exact unwind_waits hm hcurrent hc hsettled hpending
  | leave hc hpending =>
      cases pending with
      | nil => exact ⟨hm, scopes, top, hcurrent, .leave hc hpending⟩
      | cons task below => exact unwind_leaves hm hc hpending
  | fail houtside hbound hpending =>
      cases pending with
      | nil => exact ⟨hm, scopes, top, hcurrent, .fail houtside hbound hpending⟩
      | cons task below => exact unwind_falls hm hcurrent houtside hbound hpending

/-- However far a run has come, everything is in order. -/
theorem run_sound (hlocals : setting.locals = r.locals) (fuel : Nat) (h : s.Sound r) :
    (run setting fuel s).Sound r := by
  induction fuel generalizing s with
  | zero => exact h
  | succ fuel ih =>
      rw [run_succ]
      exact ih (step_sound hlocals h)

end Lox.Machine
