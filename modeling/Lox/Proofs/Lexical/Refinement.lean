/-
Lexical scoping.

A session runs accepted programs as the reference does, which knows nothing but the text:
no analysis, no distances and no frames.  From one program to the next the store of the
reference and the memory of the session agree, and so each program ends in both in the
same way, with the same output, or in neither.
-/
import Mathlib
import Lox.Proofs.Lexical.Session
import Lox.Proofs.Lexical.Simulation
import Lox.Proofs.Session.Mirroring
import Lox.Proofs.Session.Reachable

namespace Lox

/-! ### Sources that are accepted -/

namespace Session

/-- The words, the grammar and the scopes of a source have no fault. -/
def Accepted (source : String) : Prop :=
  ∃ program found after, Session.new.Accepts source program found after

theorem accepted_iff_isOk (source : String) :
    Accepted source ↔ (Session.new.analyse source).1.isOk = true := by
  unfold Accepted Accepts
  generalize Session.new.analyse source = analysed
  obtain ⟨result, after⟩ := analysed
  cases result with
  | error faults => simp [Except.isOk, Except.toBool]
  | ok analysed => exact ⟨fun _ => rfl, fun _ => ⟨analysed.1, analysed.2, after, rfl⟩⟩

instance (source : String) : Decidable (Accepted source) :=
  decidable_of_iff _ (accepted_iff_isOk source).symm

/-- It does not matter which programs a session has read before. -/
theorem accepts_iff_accepted (session : Session) (source : String) :
    (∃ program found after, session.Accepts source program found after) ↔ Accepted source := by
  have hshift : session.lastId = Session.new.lastId + session.lastId := (Nat.zero_add _).symm
  unfold Accepted Accepts
  rw [analyse_shift hshift source]
  obtain ⟨result, after⟩ := Session.new.analyse source
  cases result with
  | error faults => simp [Except.map]
  | ok analysed =>
      constructor
      · intro _
        exact ⟨analysed.1, analysed.2, after, rfl⟩
      · intro _
        exact ⟨_, _, _, rfl⟩

end Session

namespace Lexical

open Scope
open Machine (State Pending Control Completion)

variable {clock : Nat → Float} {r : Resolution} {fuel : Nat} {w : Layout} {t : Store} {m : Memory}
  {sink : Machine.Sink} {source : String} {program : List Stmt} {found : List (Nat × Nat)}

/-! ### One program -/

/-- What a program comes back to: nothing is pending, and no scope is open. -/
def outside : Base :=
  ⟨[], Memory.globals, 0⟩

/-- The evaluation of a program and the run of the machine have come to the same end. -/
structure SameEnd (r : Resolution) (result : Result Ending) (t : Store) (s : State) : Prop where
  ended : ∃ c, s.ended? = some c
  outcome : Session.outcomeOf result = Lox.Session.outcomeOf s
  env : s.env = Memory.globals
  depth : s.depth = 0
  agrees : ∃ w : Layout, w.resolution = r ∧ Agrees w t s.memory s.sink

theorem Follows.sameEnd {behind : Scopes} {s : State} {result : Result Ending}
    (h : Follows clock r fuel outside (Ends outside 0 0 behind w m) s (result, t))
    (hresolution : w.resolution = r) (hfuel : Session.outcomeOf result ≠ .outOfFuel) :
    ∃ steps, SameEnd r result t (Machine.run ⟨r.locals, clock⟩ steps s) := by
  cases h with
  | @done ending _ steps h =>
      refine ⟨steps, ?_⟩
      generalize Machine.run ⟨r.locals, clock⟩ steps s = final at h ⊢
      cases h with
      | normal hlater hagrees _ =>
          exact ⟨⟨_, rfl⟩, rfl, rfl, rfl, _, hlater.resolution.trans hresolution, hagrees⟩
      | broken hlater hagrees =>
          exact ⟨⟨_, rfl⟩, rfl, rfl, rfl, _, hlater.resolution.trans hresolution, hagrees⟩
      | returned hlater hagrees _ =>
          exact ⟨⟨_, rfl⟩, rfl, rfl, rfl, _, hlater.resolution.trans hresolution, hagrees⟩
  | failed steps hrun hresolution' hagrees =>
      refine ⟨steps, ?_⟩
      rw [hrun]
      exact ⟨⟨_, rfl⟩, rfl, rfl, rfl, _, hresolution', hagrees⟩
  | outOfFuel _ => exact absurd rfl hfuel

/-- The machine follows the evaluation of a program from its start. -/
theorem follows_program (hresolution : w.resolution = r) (hagrees : Agrees w t m sink)
    (hprogram : ResolvedStmts r [] program) (clock : Nat → Float) (fuel : Nat) :
    Follows clock r fuel outside (Ends outside 0 0 (program.foldl Scopes.declare []) w m)
      (.start program Memory.globals 0 m sink)
      (executeAll (execute clock fuel 0) none program t) :=
  (faithful clock r fuel).stmts ⟨hresolution, hagrees, here_globals hagrees⟩ hprogram

/-- More occurrences are resolved. -/
theorem Agrees.resolve (h : Agrees w t m sink) (hext : w.resolution.Extends r) :
    Agrees { w with resolution := r } t m sink :=
  have hlayout : w.Extends { w with resolution := r } := ⟨hext, List.prefix_refl _⟩
  { h with
    values := fun x a name hx => relOption_imp (fun _ _ hv => hv.extend hlayout) (h.values x a name hx)
    fields := fun address name => relOption_imp (fun _ _ hv => hv.extend hlayout) (h.fields address name) }

/-! ### Sessions -/

/-- Both sessions have run the same programs. -/
structure Corresponds (session : Session) (session' : Lox.Session) : Prop where
  lastId : session.lastId = session'.lastId
  bounded : session'.Bounded
  env : session'.env = Memory.globals
  depth : session'.depth = 0
  agrees : ∃ w : Layout, w.resolution = session'.resolution ∧
    ∃ sink, Agrees w session.store session'.memory sink

theorem corresponds_new : Corresponds .new .new := by
  refine ⟨rfl, fun id _ => by simp [Lox.Session.new], rfl, rfl, ⟨Lox.Session.new.resolution, []⟩,
    rfl, .working "", ?_⟩
  refine ⟨rfl, List.nodup_nil, fun _ hplace => absurd hplace List.not_mem_nil,
    fun a name ha hbinds => ?_, by decide, fun x a name hx => ?_, rfl, fun _ _ => .none, rfl, rfl, rfl⟩
  · have hlt := Memory.lt_size_of_binds hbinds
    exact absurd ha (Nat.not_lt.mpr (Nat.le_of_lt_succ hlt))
  · cases hx with
    | cell hslot => cases hslot
    | global name =>
        show Option.Rel _ (Bindings.get? name [("clock", Value.clock)])
          (Bindings.get? name [("clock", Value.clock)])
        simp only [Bindings.get?]
        split
        · exact .some .clock
        · exact .none

theorem outcomeOf_eq_outOfFuel_iff {s : State} :
    Lox.Session.outcomeOf s = .outOfFuel ↔ s.ended? = none := by
  unfold Lox.Session.outcomeOf
  cases s.ended? with
  | none => simp
  | some c => cases c <;> simp

section Runs

variable {session : Session} {session' after : Lox.Session}

/-- Running an accepted program is evaluating it. -/
theorem Corresponds.run_eq (h : Corresponds session session')
    (haccepts : session'.Accepts source program found after) (clock : Nat → Float) (fuel : Nat)
    (sink : Machine.Sink) :
    session.run clock fuel sink source
      = let final := executeAll (execute clock fuel 0) none program { session.store with sink := sink }
        (Session.outcomeOf final.1, final.2.sink, ⟨after.lastId, final.2⟩) := by
  obtain ⟨hparse, -, -⟩ := haccepts.read
  obtain ⟨hresult, rfl⟩ := Prod.mk.inj hparse
  split at hresult
  · rename_i hnil
    obtain rfl := Except.ok.inj hresult
    unfold Session.run
    dsimp only
    rw [h.lastId, hnil]
  · cases hresult

/-- The machine follows the evaluation of an accepted program. -/
theorem Corresponds.follows (h : Corresponds session session')
    (haccepts : session'.Accepts source program found after) (clock : Nat → Float) (fuel : Nat)
    (sink : Machine.Sink) :
    ∃ (w : Layout) (behind : Scopes), w.resolution = after.resolutionWith found ∧
      Follows clock (after.resolutionWith found) fuel outside
        (Ends outside 0 0 behind w session'.memory) (after.starts program sink)
        (executeAll (execute clock fuel 0) none program { session.store with sink := sink }) := by
  obtain ⟨w, hw, _, hagrees⟩ := h.agrees
  have hextends : w.resolution.Extends (after.resolutionWith found) := by
    rw [hw]
    exact haccepts.extends
  have hfollows := follows_program rfl ((hagrees.written sink).resolve hextends)
    (haccepts.resolved h.bounded) clock fuel
  refine ⟨{ w with resolution := after.resolutionWith found }, program.foldl Scopes.declare [], rfl,
    ?_⟩
  have hdepth : after.depth = 0 := by
    rw [haccepts.after_eq]
    exact h.depth
  rw [Lox.Session.starts, haccepts.env_eq, haccepts.memory_eq, h.env, hdepth]
  exact hfollows

/-- What both sessions are after a program. -/
theorem SameEnd.corresponds {result : Result Ending} {s : State}
    (h : SameEnd (after.resolutionWith found) result t s) (hbounded : session'.Bounded)
    (haccepts : session'.Accepts source program found after) :
    Corresponds ⟨after.lastId, t⟩
      ⟨after.lastId, after.locals.extend found, s.env, s.depth, s.memory⟩ := by
  obtain ⟨w, hw, hagrees⟩ := h.agrees
  exact ⟨rfl, haccepts.bounded hbounded, h.env, h.depth, w, hw, _, hagrees⟩

/-- What a program comes to in the reference, it comes to in the session. -/
theorem Corresponds.refine (h : Corresponds session session')
    (haccepts : session'.Accepts source program found after)
    (hended : (session.run clock fuel sink source).1 ≠ .outOfFuel) :
    ∃ fuel', (session'.run clock fuel' sink source).1 = (session.run clock fuel sink source).1 ∧
      (session'.run clock fuel' sink source).2.1 = (session.run clock fuel sink source).2.1 ∧
      Corresponds (session.run clock fuel sink source).2.2
        (session'.run clock fuel' sink source).2.2 := by
  obtain ⟨w, behind, hw, hfollows⟩ := h.follows haccepts clock fuel sink
  rw [h.run_eq haccepts] at hended ⊢
  obtain ⟨steps, hend⟩ := hfollows.sameEnd hw hended
  refine ⟨steps, ?_⟩
  rw [haccepts.run_eq]
  obtain ⟨_, _, hagrees⟩ := hend.agrees
  exact ⟨hend.outcome.symm, hagrees.sink.symm, hend.corresponds h.bounded haccepts⟩

/-- If a program ends in the session within some steps, then as much fuel is enough for the
reference. -/
theorem Corresponds.ends (h : Corresponds session session')
    (haccepts : session'.Accepts source program found after)
    (hended : (session'.run clock fuel sink source).1 ≠ .outOfFuel) :
    (session.run clock fuel sink source).1 ≠ .outOfFuel := by
  obtain ⟨w, behind, hw, hfollows⟩ := h.follows haccepts clock fuel sink
  rw [haccepts.run_eq] at hended
  rw [h.run_eq haccepts]
  dsimp only at hended ⊢
  generalize executeAll (execute clock fuel 0) none program { session.store with sink := sink }
    = final at hfollows ⊢
  cases hfollows with
  | done _ _ => simp [Session.outcomeOf]
  | failed _ _ _ _ => simp [Session.outcomeOf]
  | outOfFuel hnot => exact absurd (outcomeOf_eq_outOfFuel_iff.mpr hnot) hended

/-- What a program comes to does not depend on the bound for its steps. -/
theorem run_eq_of_ended {fuel' : Nat} (haccepts : session'.Accepts source program found after)
    (h : (session'.run clock fuel sink source).1 ≠ .outOfFuel)
    (h' : (session'.run clock fuel' sink source).1 ≠ .outOfFuel) :
    session'.run clock fuel sink source = session'.run clock fuel' sink source := by
  have hended : ∀ {fuel}, (session'.run clock fuel sink source).1 ≠ .outOfFuel →
      ∃ c, (Machine.run ⟨after.locals.extend found, clock⟩ fuel
        (after.starts program sink)).ended? = some c := by
    intro fuel h
    rw [haccepts.run_eq, ne_eq, outcomeOf_eq_outOfFuel_iff] at h
    exact Option.ne_none_iff_exists'.mp h
  obtain ⟨c, hc⟩ := hended h
  obtain ⟨c', hc'⟩ := hended h'
  rw [haccepts.run_eq, haccepts.run_eq]
  rcases Nat.le_total fuel fuel' with hle | hle
  · rw [Machine.run_mono hle hc]
  · rw [Machine.run_mono hle hc']

/-! ### Whole sessions -/

theorem Corresponds.answers {sources : List String} {answers : List (Outcome × Machine.Sink)}
    (haccepted : ∀ source ∈ sources, Lox.Session.Accepted source)
    (hanswers : Answers (Session.run clock) sink session sources answers) :
    ∀ {session' : Lox.Session}, Corresponds session session' →
      Answers (Lox.Session.run clock) sink session' sources answers := by
  induction hanswers with
  | nil =>
      intro session' _
      exact .nil
  | @cons fuel sink sink' session after source outcome rest answers hrun hended _ ih =>
      intro session' h
      obtain ⟨program, found, after', haccepts⟩ :=
        (Lox.Session.accepts_iff_accepted session' source).mpr (haccepted _ List.mem_cons_self)
      obtain ⟨fuel', houtcome, hsink, hafter⟩ :=
        h.refine haccepts (show (session.run clock fuel sink source).1 ≠ .outOfFuel by rwa [hrun])
      rw [hrun] at houtcome hsink hafter
      refine .cons (Prod.ext houtcome (Prod.ext hsink rfl)) hended ?_
      exact ih (fun s hs => haccepted s (List.mem_cons_of_mem _ hs)) hafter

theorem Corresponds.answered {sources : List String} {answers : List (Outcome × Machine.Sink)}
    (haccepted : ∀ source ∈ sources, Lox.Session.Accepted source)
    (hanswers : Answers (Lox.Session.run clock) sink session' sources answers) :
    ∀ {session : Session}, Corresponds session session' →
      Answers (Session.run clock) sink session sources answers := by
  induction hanswers with
  | nil =>
      intro session _
      exact .nil
  | @cons fuel sink sink' session' after source outcome rest answers hrun hended _ ih =>
      intro session h
      obtain ⟨program, found, after', haccepts⟩ :=
        (Lox.Session.accepts_iff_accepted session' source).mpr (haccepted _ List.mem_cons_self)
      have hended' : (session'.run clock fuel sink source).1 ≠ .outOfFuel := by rwa [hrun]
      have hreference := h.ends haccepts hended'
      obtain ⟨fuel', houtcome, hsink, hafter⟩ := h.refine haccepts hreference
      have hsame : session'.run clock fuel' sink source = (outcome, sink', after) := by
        rw [← hrun]
        refine run_eq_of_ended haccepts ?_ hended'
        rwa [houtcome]
      rw [hsame] at houtcome hsink hafter
      refine .cons (Prod.ext houtcome.symm (Prod.ext hsink.symm rfl)) hended ?_
      exact ih (fun s hs => haccepted s (List.mem_cons_of_mem _ hs)) hafter

end Runs

/-- **Lexical scoping.**  Sources that are accepted are answered by a session, one after the
other, exactly as the reference answers them. -/
theorem answers_iff (clock : Nat → Float) (sink : Machine.Sink) (sources : List String)
    (answers : List (Outcome × Machine.Sink))
    (haccepted : ∀ source ∈ sources, Lox.Session.Accepted source) :
    Answers (Lox.Session.run clock) sink .new sources answers ↔
      Answers (Session.run clock) sink .new sources answers :=
  ⟨fun h => corresponds_new.answered haccepted h, fun h => corresponds_new.answers haccepted h⟩

/-- A later program calls a function where another variable has the name of the one that the
function has captured. -/
theorem captured_variable_answered :
    let sources := ["fun make() \x7b var n = true; fun show() \x7b print n; \x7d return show; \x7d",
      "\x7b var n = nil; make()(); \x7d"]
    (∀ source ∈ sources, Lox.Session.Accepted source) ∧
      Answers (Session.run fun _ => 0) (.working "") .new sources
        [(.success, .working ""),
          (.success, { Machine.Sink.working "true\n" with given := ["true"] })] := by
  intro sources
  have haccepted : ∀ source ∈ sources, Lox.Session.Accepted source := by
    intro source hsource
    rw [Lox.Session.accepted_iff_isOk]
    rcases List.mem_pair.mp hsource with rfl | rfl
    all_goals
      unfold Lox.Session.analyse Lox.Session.parse
      cbv
  refine ⟨haccepted, (answers_iff _ _ _ _ haccepted).mp ?_⟩
  refine .cons (show Lox.Session.run _ 99 _ _ _ = _ from Prod.ext ?_ (Prod.ext ?_ rfl)) (by simp)
    (.cons (show Lox.Session.run _ 99 _ _ _ = _ from Prod.ext ?_ (Prod.ext ?_ rfl)) (by simp) .nil)
  all_goals
    unfold Lox.Session.run Lox.Session.analyse Lox.Session.parse
    cbv

end Lexical

end Lox
