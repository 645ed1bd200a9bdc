/-
Which method a `super` finds.

The methods of a superclass are found by the class declaration that a `super` stands in, not
by the class of the instance: by what its superclass was when the declaration was evaluated.
The instance only decides what the method is bound to.  All of this has happened before, so
a session is looked at together with the states that it went through.
-/
import Mathlib
import Lox.Proofs.Machine.Inheritance
import Lox.Proofs.Session.Invariants

namespace Lox

/-! ### Chains of classes -/

/-- On a chain of layers this is the first definition of a method. -/
inductive FirstIn (name : String) (closure : Closure) : List ClassLayer → Prop
  | here {layer : ClassLayer} {rest : List ClassLayer}
      (h : layer.methods.get? name = some closure) : FirstIn name closure (layer :: rest)
  | further {layer : ClassLayer} {rest : List ClassLayer} (hnone : layer.methods.get? name = none)
      (h : FirstIn name closure rest) : FirstIn name closure (layer :: rest)

theorem Class.find?_of_firstIn {c : Class} {name : String} {closure : Closure}
    (h : FirstIn name closure c.layers) : c.find? name = some closure := by
  unfold Class.find?
  generalize c.layers = layers at h
  induction h with
  | here h => rw [List.findSome?_cons, h]
  | further hnone _ ih => rw [List.findSome?_cons, hnone, ih]

theorem Class.find?_eq_none_iff {c : Class} {name : String} :
    c.find? name = none ↔ ∀ layer ∈ c.layers, layer.methods.get? name = none :=
  List.findSome?_eq_none_iff

namespace Machine

open Scope

variable {setting : Setting} {s : State}

/-- The next state has a method for its value that is bound to an instance: a new frame that
binds `this` lies in front of the frames that the method remembers. -/
def GivesMethod (s next : State) (method : Closure) (this : Value) : Prop :=
  ∃ m identity,
    next = { s with
      control := .value (.function identity
        { method with env := s.memory.frames.size :: method.env })
      memory := m } ∧
    m.frame s.memory.frames.size = [("this", this)] ∧ s.memory.Keeps m

/-- A name is looked up on a chain: the first definition is given, bound to the instance, and
if there is none that is a failure. -/
structure Dispatches (s next : State) (chain : List ClassLayer) (name : Token) (this : Value) :
    Prop where
  found : ∀ closure, FirstIn name.lexeme closure chain → GivesMethod s next closure this
  missing : next.control = .complete (.failed ⟨name, .undefinedProperty name.lexeme⟩) ↔
    ∀ layer ∈ chain, layer.methods.get? name.lexeme = none

theorem givesMethod_newMethod (s : State) (closure : Closure) (this : Value) :
    GivesMethod s { s with
      memory := (s.memory.newMethod closure this).2
      control := .value (s.memory.newMethod closure this).1 } closure this := by
  refine ⟨_, s.memory.nextIdentity, rfl, ?_, s.memory.keeps_newMethod closure this⟩
  exact (s.memory.frame_newFrame [("this", this)] s.memory.frames.size).trans (if_pos rfl)

/-- What is looked up in the layers of a class is found there, or missing. -/
theorem dispatches_of_find {next : State} {class_ : Class} {name : Token} {this : Value}
    (hfound : ∀ closure, class_.find? name.lexeme = some closure →
      next = { s with
        memory := (s.memory.newMethod closure this).2
        control := .value (s.memory.newMethod closure this).1 })
    (hmissing : class_.find? name.lexeme = none →
      next = s.failing name (.undefinedProperty name.lexeme)) :
    Dispatches s next class_.layers name this := by
  refine ⟨fun closure hfirst => ?_, fun hfailed => ?_, fun hnone => ?_⟩
  · rw [hfound closure (Class.find?_of_firstIn hfirst)]
    exact givesMethod_newMethod s closure this
  · cases hfind : class_.find? name.lexeme with
    | none => exact Class.find?_eq_none_iff.mp hfind
    | some closure =>
        rw [hfound closure hfind] at hfailed
        exact absurd hfailed (by simp)
  · rw [hmissing (Class.find?_eq_none_iff.mpr hnone)]
    rfl

/-- A property that is no field is looked up in the class of the instance. -/
theorem getProperty_dispatches (s : State) {address : Address} {class_ : Class} {name : Token}
    (hfield : s.memory.field? address name.lexeme = none) :
    Dispatches s (getProperty s (.object address class_) name) class_.layers name
      (.object address class_) := by
  refine dispatches_of_find (fun closure hfind => ?_) fun hfind => ?_
  · unfold getProperty
    dsimp only
    rw [hfield, hfind]
  · unfold getProperty
    dsimp only
    rw [hfield, hfind]

/-- A `super` whose frame binds a class is looked up in that class. -/
theorem inheritedMethod_dispatches (s : State) {keyword : Occurrence} {method : Token}
    {distance : Nat} {superclass : Class} {address : Address} {class_ : Class}
    (hlocal : setting.locals[keyword.id]? = some (distance + 1))
    (hsuper : s.memory.readAt? s.env (distance + 1) "super" = some (.classValue superclass))
    (hthis : s.memory.readAt? s.env distance "this" = some (.object address class_)) :
    Dispatches s (inheritedMethod setting s keyword method) superclass.layers method
      (.object address class_) := by
  refine dispatches_of_find (fun closure hfind => ?_) fun hfind => ?_
  · simp only [inheritedMethod, hlocal, hsuper, Nat.add_sub_cancel, hthis, hfind]
  · simp only [inheritedMethod, hlocal, hsuper, Nat.add_sub_cancel, hthis, hfind]

/-- The frame right inside the one that binds `super` binds `this` to an instance. -/
theorem this_bound {r : Resolution} {keyword : Occurrence} {method : Token} {distance : Nat}
    (h : s.Sound r) (hcontrol : s.control = .evaluate (.super keyword method))
    (hlocal : r.locals[keyword.id]? = some (distance + 1)) :
    ∃ address class_, s.memory.readAt? s.env distance "this" = some (.object address class_) := by
  obtain ⟨hmemory, scopes, top, hcurrent, hproceeds⟩ := h
  rw [hcontrol] at hproceeds
  cases hproceeds with
  | evaluate hresolved hwaits =>
      cases hresolved with
      | @super _ _ near hname hrefers hthis hsuper =>
          have hnear : near = distance := by
            have hdistance := hrefers.distance
            rw [hlocal, hname, hsuper] at hdistance
            exact (Nat.succ.inj (Option.some.inj hdistance)).symm
          subst hnear
          obtain ⟨a, address, class_, ha, hobject⟩ := reads_this hcurrent.toMatches hmemory hthis
            (hwaits.not_initializing fun hordinary => hordinary.1 rfl)
          exact ⟨address, class_, (readAt?_eq "this" ha).trans hobject⟩

/-- The states that a run passes through in its first steps. -/
def trace (setting : Setting) (steps : Nat) (s : State) : List State :=
  (List.range steps).map fun k => run setting k s

theorem trace_succ (setting : Setting) (steps : Nat) (s : State) :
    trace setting (steps + 1) s = trace setting steps s ++ [run setting steps s] := by
  rw [trace, List.range_succ, List.map_append]
  rfl

end Machine

namespace Session

open Scope Machine

variable {session after : Session} {source : String} {program : List Stmt}
  {found : List (Nat × Nat)} {past : List State}

/-! ### Sessions and what they went through -/

/-- Sessions together with the states of all runs in them, the earlier ones first. -/
inductive Lived : List State → Session → Prop
  | new : Lived [] .new
  | parse {past : List State} {session : Session} (h : Lived past session) (source : String) :
      Lived past (session.parse source).2
  | run {past : List State} {session after : Session} {source : String} {program : List Stmt}
      {found : List (Nat × Nat)} {c : Completion} (h : Lived past session)
      (haccepts : session.Accepts source program found after) (clock : Nat → Float) (fuel : Nat)
      (sink : Sink)
      (hended : (Machine.run ⟨after.locals.extend found, clock⟩ fuel
        (after.starts program sink)).ended? = some c) :
      Lived (past ++ trace ⟨after.locals.extend found, clock⟩ fuel (after.starts program sink))
        (after.leftBy found (Machine.run ⟨after.locals.extend found, clock⟩ fuel
          (after.starts program sink)))

/-- Every session went through something. -/
theorem Reachable.lived (h : session.Reachable) : ∃ past, Lived past session := by
  refine h.invariant (I := fun session => ∃ past, Lived past session) ⟨[], .new⟩
    (fun session source _ ⟨past, hpast⟩ => ⟨past, hpast.parse source⟩) ?_
  rintro session after source program found clock fuel sink s c - ⟨past, hpast⟩ haccepts rfl hended
  exact ⟨_, hpast.run haccepts clock fuel sink hended⟩

theorem Lived.sound (h : Lived past session) : session.Sound := by
  induction h with
  | new => exact sound_new
  | parse _ source ih => exact ih.parse source
  | run _ haccepts clock fuel sink hended ih =>
      exact sound_after haccepts ih (ih.runs haccepts clock sink fuel) hended

/-- What a session has left behind is tied to what it went through. -/
structure Tied (past : List State) (session : Session) : Prop where
  functions : session.memory.All (FunctionTied past)
  recalls : ∀ s₀ ∈ past, ∀ superclass class_ methods, s₀.Declares superclass class_ methods →
    Recalls session.resolution session.memory s₀ superclass methods

theorem Tied.starts (h : Tied past session) (hsound : session.Sound)
    (haccepts : session.Accepts source program found after) (sink : Sink) :
    (after.starts program sink).Tied (after.resolutionWith found) past := by
  refine ⟨⟨?_, trivial, List.forall_mem_singleton.mpr trivial⟩, ⟨.none past _, ?_, trivial⟩,
    fun s₀ hs₀ superclass class_ methods hdeclares => ?_⟩
  · show after.memory.All _
    rw [haccepts.memory_eq]
    exact h.functions
  · exact .inl ⟨0, supers_of_program (haccepts.resolved hsound.bounded) 0⟩
  · show Recalls _ after.memory s₀ superclass methods
    rw [haccepts.memory_eq]
    exact (h.recalls s₀ hs₀ superclass class_ methods hdeclares).keep haccepts.extends (.refl _)

/-- However far a run has come, it is tied to what has happened before. -/
theorem Tied.runs (h : Tied past session) (hsound : session.Sound)
    (haccepts : session.Accepts source program found after) (clock : Nat → Float) (sink : Sink)
    (steps : Nat) :
    (Machine.run ⟨after.locals.extend found, clock⟩ steps (after.starts program sink)).Tied
      (after.resolutionWith found)
      (past ++ trace ⟨after.locals.extend found, clock⟩ steps (after.starts program sink)) := by
  induction steps with
  | zero =>
      rw [trace, List.range_zero, List.map_nil, List.append_nil]
      exact h.starts hsound haccepts sink
  | succ steps ih =>
      rw [trace_succ, ← List.append_assoc, run_step]
      exact step_tied (hsound.runs haccepts clock sink steps) ih

theorem Lived.tied (h : Lived past session) : Tied past session := by
  induction h with
  | new =>
      refine ⟨Memory.All.initial, ?_⟩
      simp
  | @parse past session h source ih =>
      have hle : session.lastId ≤ (session.parse source).2.lastId :=
        Grammar.parse_lastId_le _ _ _
      have hext : session.resolution.Extends (session.parse source).2.resolution :=
        ⟨hle, fun _ _ => rfl⟩
      exact ⟨ih.functions, fun s₀ hs₀ superclass class_ methods hdeclares =>
        (ih.recalls s₀ hs₀ superclass class_ methods hdeclares).keep hext (.refl _)⟩
  | run h haccepts clock fuel sink _ ih =>
      have hruns := ih.runs h.sound haccepts clock sink fuel
      exact ⟨hruns.functions.memory, hruns.recalls⟩

/-! ### Where methods are looked up -/

/-- **`super` depends on the class declaration that it stands in, and `this` on the
instance.**  Whenever a run is about to evaluate `super.m`, the session has at some time
evaluated a class declaration with a superclass of that value, among whose methods the
`super` stands.  The open frames end in one that binds `this` to an instance and in those of
that declaration; `m` is looked up on the chain of that superclass, and the first definition
is bound to that instance.  A property that is no field of an instance is looked up on the
chain of the instance's own class.  Either fails exactly if no class on the chain defines
the method. -/
theorem methods_dispatched (h : Lived past session)
    (haccepts : session.Accepts source program found after) (clock : Nat → Float) (sink : Sink)
    (steps : Nat) :
    let setting : Setting := ⟨after.locals.extend found, clock⟩
    let start := after.starts program sink
    let s := Machine.run setting steps start
    (∀ keyword method, s.control = .evaluate (.super keyword method) →
      ∃ s₀ ∈ past ++ trace setting steps start, ∃ superclass class_ methods,
        s₀.Declares superclass class_ methods ∧
        ∃ inner b address own,
          (inner.length + 1, keyword) ∈ FunctionDecl.supersAll methods 1 ∧
          s.env = inner ++ b :: s₀.memory.frames.size :: s₀.env ∧
          (s.memory.frame b).get? "this" = some (.object address own) ∧
          Dispatches s (step setting s) superclass.layers method (.object address own)) ∧
    ∀ name below address class_, s.control = .value (.object address class_) →
      s.pending = .property name :: below → s.memory.field? address name.lexeme = none →
      Dispatches { s with pending := below } (step setting s) class_.layers name
        (.object address class_) := by
  intro setting start s
  have htied : s.Tied (after.resolutionWith found) (past ++ trace setting steps start) :=
    h.tied.runs h.sound haccepts clock sink steps
  have hsound : s.Sound (after.resolutionWith found) := h.sound.runs haccepts clock sink steps
  refine ⟨fun keyword method hcontrol => ?_,
    fun name below address class_ hcontrol hpending hfield => ?_⟩
  · have hcode := htied.going.control
    rw [hcontrol] at hcode
    rcases hcode with ⟨depth, hnone⟩ | ⟨s₀, hs₀, superclass, class_, methods, hdeclares, inner, b,
      henv, hsupers⟩
    · exact absurd hnone (by simp [Control.supers, Expr.supersAt, Expr.supers])
    · have hmem := hsupers (List.mem_cons_self : (inner.length + 1, keyword) ∈ _)
      have hrecalls := htied.recalls s₀ hs₀ superclass class_ methods hdeclares
      have hlocal : setting.locals[keyword.id]? = some (inner.length + 1) :=
        (hrecalls.distances _ hmem).2
      have hsuper : s.memory.readAt? s.env (inner.length + 1) "super"
          = some (.classValue superclass) := by
        rw [readAt?_eq "super" (a := s₀.memory.frames.size) (by simp [henv]), hrecalls.binds]
      obtain ⟨address, own, hthis⟩ := this_bound hsound hcontrol hlocal
      have hb : (s.memory.frame b).get? "this" = some (.object address own) := by
        rw [← hthis, readAt?_eq "this" (a := b) (by simp [henv])]
      have hstep : step setting s = inheritedMethod setting s keyword method := by
        unfold step
        rw [hcontrol]
        rfl
      refine ⟨s₀, hs₀, superclass, class_, methods, hdeclares, inner, b, address, own, hmem, henv,
        hb, ?_⟩
      rw [hstep]
      exact inheritedMethod_dispatches s hlocal hsuper hthis
  · have hstep : step setting s
        = getProperty { s with pending := below } (.object address class_) name := by
      unfold step
      rw [hcontrol, hpending]
      rfl
    rw [hstep]
    exact getProperty_dispatches { s with pending := below } hfield

/-- An initializer takes the one that it overrides from its superclass. -/
theorem overridden_initializer_found : ∃ past setting steps start keyword method,
    Lived past .new ∧
    (Machine.run setting steps start).control = .evaluate (.super keyword method) ∧
    ∃ s₀ ∈ past ++ trace setting steps start, ∃ superclass class_ methods,
      s₀.Declares superclass class_ methods ∧
      ∃ inner b address own,
        (inner.length + 1, keyword) ∈ FunctionDecl.supersAll methods 1 ∧
        (Machine.run setting steps start).env
          = inner ++ b :: s₀.memory.frames.size :: s₀.env ∧
        ((Machine.run setting steps start).memory.frame b).get? "this"
          = some (.object address own) ∧
        Dispatches (Machine.run setting steps start)
          (step setting (Machine.run setting steps start)) superclass.layers method
          (.object address own) := by
  let program : List Stmt := [
    .classDecl ⟨.identifier, "A", 1⟩ none [⟨⟨.identifier, "init", 1⟩, [], []⟩],
    .classDecl ⟨.identifier, "B", 1⟩ (some ⟨⟨.identifier, "A", 1⟩, 1⟩)
      [⟨⟨.identifier, "init", 1⟩, [],
        [.expression (.super ⟨⟨.kwSuper, "super", 1⟩, 2⟩ ⟨.identifier, "init", 1⟩)]⟩],
    .expression (.call (.use ⟨⟨.identifier, "B", 1⟩, 3⟩) ⟨.rightParen, ")", 1⟩ [])]
  let after : Session := { Session.new with lastId := 3 }
  have haccepts : Session.new.Accepts
      "class A \x7b init() \x7b\x7d \x7d class B < A \x7b init() \x7b super.init; \x7d \x7d B();"
      program [(2, 2)] after := by
    unfold Accepts
    cbv
  let setting : Setting := ⟨after.locals.extend [(2, 2)], fun _ => 0⟩
  let start : State := after.starts program (.working "")
  have hcontrol : (Machine.run setting 13 start).control
      = .evaluate (.super ⟨⟨.kwSuper, "super", 1⟩, 2⟩ ⟨.identifier, "init", 1⟩) := by cbv
  exact ⟨[], setting, 13, start, _, _, .new, hcontrol,
    (methods_dispatched .new haccepts (fun _ => 0) (.working "") 13).1 _ _ hcontrol⟩

end Session

end Lox
