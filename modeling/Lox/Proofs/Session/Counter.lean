/-
One counter for all readings of a session.

Every occurrence gets its number from a counter that is handed on from one reading to
the next, whatever the step does with what it has read, and also if that has faults.
Where the counter stands when a program is read is a shift of its numbers and nothing
else.  So no two readings of a session share a number, and the table of distances only
ever gets entries that it does not have yet: whatever an earlier program has recorded
stays as it is.
-/
import Lox.Proofs.Grammar.Numbering
import Lox.Proofs.Session.Interference

namespace Lox.Session

open Machine

/-! ### The readings of a session -/

/-- The source that a step reads. -/
def Step.source : Step → String
  | .run _ source => source
  | .transpile _ source => source
  | .parse source => source

/-- A step and the session in which it is taken. -/
structure Moment where
  session : Session
  step : Step

namespace Moment

/-- What the grammar makes of the source: the statements that are kept, also those beside
faults, and where the counter is left. -/
def reading (moment : Moment) : Grammar.Parsed :=
  let lexed := Lexed.ofSource moment.step.source
  Grammar.parse lexed.tokens lexed.endLine moment.session.lastId

/-- The numbers that the reading has given to what it keeps. -/
def ids (moment : Moment) : List Nat :=
  Stmt.idsAll moment.reading.program

/-- The later of two moments gives out no number of the earlier one, and finds everything
in the table that the earlier one has found there. -/
def Precedes (earlier later : Moment) : Prop :=
  List.Disjoint earlier.ids later.ids ∧
    ∀ id distance : Nat, earlier.session.locals[id]? = some distance →
      later.session.locals[id]? = some distance

/-- If the source is accepted, what was found about it goes into the table entry by entry,
and each finds its place in the table empty. -/
def OnlyAdds (moment : Moment) : Prop :=
  ∀ program found after, moment.session.Accepts moment.step.source program found after →
    ∀ before entry rest, found = before ++ entry :: rest →
      (moment.session.locals.extend before)[entry.1]? = none

end Moment

/-- Steps that are taken one after the other, each with the session that it finds. -/
def moments (clock : Nat → Float) : Session → Sink → List Step → List Moment
  | _, _, [] => []
  | session, sink, step :: rest =>
      let taken := session.take clock sink step
      ⟨session, step⟩ :: moments clock taken.2.1 taken.2.2 rest

/-! ### One step -/

variable {session : Session} {clock : Nat → Float} {sink : Sink}

/-- The numbers of a reading are behind the counter, and up to where it is left. -/
theorem Moment.numbered (moment : Moment) :
    Numbered moment.session.lastId moment.ids moment.reading.lastId :=
  Grammar.parse_numbered _ _ _

/-- A run leaves the counter where its reading does, and touches nothing that the table
says about numbers that were given out before. -/
theorem run_counts (fuel : Nat) (source : String) :
    (session.run clock fuel sink source).2.2.lastId = (session.parse source).2.lastId ∧
      ∀ id ≤ session.lastId,
        (session.run clock fuel sink source).2.2.locals[id]? = session.locals[id]? := by
  have hafter := analyse_session session source
  cases hresult : session.analyse source with
  | mk result after =>
      rw [hresult] at hafter
      obtain rfl : after = (session.parse source).2 := hafter
      unfold Session.run
      rw [hresult]
      cases result with
      | error faults => exact ⟨rfl, fun _ _ => rfl⟩
      | ok accepted =>
          have haccepts : session.Accepts source accepted.1 accepted.2 _ := hresult
          exact ⟨rfl, haccepts.extends.2⟩

/-- Every step leaves the counter where its reading does. -/
theorem take_lastId (step : Step) :
    (session.take clock sink step).2.1.lastId = (Moment.mk session step).reading.lastId := by
  have hread : (Moment.mk session step).reading.lastId = (session.parse step.source).2.lastId := by
    dsimp only [Moment.reading, Session.parse]
  rw [hread]
  cases step with
  | run fuel source =>
      show (session.run clock fuel sink source).2.2.lastId = _
      exact (run_counts fuel source).1
  | transpile pretty source =>
      show (session.toScheme pretty source).2.lastId = _
      rw [toScheme_session, Step.source]
  | parse source => rfl

/-- No step touches what the table says about numbers that were given out before. -/
theorem take_locals (step : Step) {id : Nat} (hid : id ≤ session.lastId) :
    (session.take clock sink step).2.1.locals[id]? = session.locals[id]? := by
  cases step with
  | run fuel source => exact (run_counts fuel source).2 id hid
  | transpile pretty source =>
      have hlocals := congrArg Session.locals (toScheme_session session pretty source)
      exact congrArg (fun locals : Scope.Locals => locals[id]?) hlocals
  | parse source => rfl

theorem le_take_lastId (step : Step) :
    session.lastId ≤ (session.take clock sink step).2.1.lastId := by
  rw [take_lastId]
  exact (Moment.mk session step).numbered.le

/-- Distances are found for numbers that are behind the counter, and once for each. -/
theorem Bounded.onlyAdds (h : session.Bounded) (step : Step) :
    (Moment.mk session step).OnlyAdds := by
  intro program found after haccepts before entry rest hfound
  have hnodup := haccepts.nodup
  have hentry : entry.1 ∈ Stmt.idsAll program :=
    haccepts.listed.subset (List.mem_map_of_mem (hfound ▸ by simp))
  have hnew : entry.1 ∉ before.map Prod.fst := by
    intro hmem
    rw [hfound, List.map_append, List.nodup_append] at hnodup
    exact hnodup.2.2 _ hmem _ (by simp) rfl
  show (session.locals.extend before)[entry.1]? = none
  rw [Scope.Locals.getElem?_extend_of_not_mem hnew]
  exact h _ (haccepts.numbered.within _ hentry).1

/-! ### All steps -/

/-- Every later moment counts on from where an earlier session stands, and its table says
the same about all numbers up to there. -/
theorem moments_follow (steps : List Step) : ∀ {session : Session} {sink : Sink},
    ∀ moment ∈ moments clock session sink steps,
      session.lastId ≤ moment.session.lastId ∧
        ∀ id ≤ session.lastId, moment.session.locals[id]? = session.locals[id]? := by
  induction steps with
  | nil =>
      intro session sink moment hmem
      exact absurd hmem List.not_mem_nil
  | cons step rest ih =>
      intro session sink moment hmem
      rcases List.mem_cons.mp hmem with rfl | hmem
      · exact ⟨le_rfl, fun _ _ => rfl⟩
      · obtain ⟨hle, hsame⟩ := ih moment hmem
        have hstep : session.lastId ≤ (session.take clock sink step).2.1.lastId :=
          le_take_lastId step
        refine ⟨hstep.trans hle, fun id hid => ?_⟩
        rw [hsame id (hid.trans hstep), take_locals step hid]

/-- The moment of a step precedes all that come behind the step. -/
theorem Contained.precedes (h : session.Contained) (step : Step) {rest : List Step}
    {moment : Moment}
    (hmem : moment ∈ moments clock (session.take clock sink step).2.1
      (session.take clock sink step).2.2 rest) :
    (Moment.mk session step).Precedes moment := by
  obtain ⟨hle, hsame⟩ := moments_follow rest moment hmem
  have hstep : session.lastId ≤ (session.take clock sink step).2.1.lastId := le_take_lastId step
  refine ⟨fun id hearlier hlater => ?_, fun id distance hfound => ?_⟩
  · have hupper := ((Moment.mk session step).numbered.within id hearlier).2
    have hlower := (moment.numbered.within id hlater).1
    rw [take_lastId] at hle
    omega
  · have hid : id ≤ session.lastId := by
      by_contra hid
      rw [h.bounded id (Nat.lt_of_not_le hid)] at hfound
      exact absurd hfound (by simp)
    rw [hsame id (hid.trans hstep), take_locals step hid]
    exact hfound

theorem Contained.moments_apart (steps : List Step) : ∀ {session : Session} {sink : Sink},
    session.Contained →
      (moments clock session sink steps).Pairwise Moment.Precedes ∧
        ∀ moment ∈ moments clock session sink steps, moment.OnlyAdds := by
  induction steps with
  | nil => exact fun _ => ⟨.nil, fun _ hmem => absurd hmem List.not_mem_nil⟩
  | cons step rest ih =>
      intro session sink h
      have hafter : (session.take clock sink step).2.1.Contained := h.take step
      obtain ⟨hapart, hadds⟩ := @ih _ (session.take clock sink step).2.2 hafter
      refine ⟨.cons (fun moment hmem => h.precedes step hmem) hapart, fun moment hmem => ?_⟩
      rcases List.mem_cons.mp hmem with rfl | hmem
      · exact h.bounded.onlyAdds step
      · exact hadds moment hmem

/-- **Numbers are never used twice.**  Whatever tokens are read and wherever the counter
starts, the numbers of what is kept are pairwise distinct and lie between the start and
where the counter is left, and another start gives the same faults and the same statements
with all numbers shifted by the difference.  So in every session the numbers of different
readings are disjoint, and recording distances never overwrites an entry of the table. -/
theorem numbers_never_collide :
    (∀ tokens endLine k, Numbered k (Stmt.idsAll (Grammar.parse tokens endLine k).program)
      (Grammar.parse tokens endLine k).lastId) ∧
    (∀ tokens endLine k k', Grammar.parse tokens endLine k'
      = ⟨(Grammar.parse tokens endLine k).program.map (Stmt.renumber fun id => id + k' - k),
          (Grammar.parse tokens endLine k).faults,
          (Grammar.parse tokens endLine k).lastId + k' - k⟩) ∧
    ∀ clock sink steps, (moments clock .new sink steps).Pairwise Moment.Precedes ∧
      ∀ moment ∈ moments clock .new sink steps, moment.OnlyAdds :=
  ⟨Grammar.parse_numbered, Grammar.parse_restart,
    fun _ _ steps => contained_new.moments_apart steps⟩

/-- What is thrown away has used up its numbers, too: here the first is gone. -/
example : (moments (fun _ => 0) .new (.working "") [.parse "b = ; c;", .run 9 "d;"]).map
    Moment.ids = [[2], [3]] := by
  cbv

end Lox.Session
