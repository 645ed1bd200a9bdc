/-
What a session does not notice.

A session is asked for one thing after another: to run a program, to translate one, or
only to read one.  All of them use up numbers, and what was run goes on looking up its
distances by number for as long as there are functions of it.  Still nothing but the
programs that were really run has an influence on the next: whatever only reads can be
left out, and the replies to everything else stay the same.  A tree has other numbers
then, so trees are compared without.

The proof keeps the session from which steps were left out mirrored by the one that took
them all.
-/
import Mathlib
import Lox.Proofs.Session.Mirroring
import Lox.Proofs.Syntax.Renumbering

namespace Lox.Session

open Machine

/-! ### Sessions as they are asked -/

/-- What a session can be asked for. -/
inductive Step where
  | run (fuel : Nat) (source : String)
  | transpile (pretty : Bool) (source : String)
  | parse (source : String)

/-- What is replied.  A run has an outcome, and the output is then in the given state. -/
inductive Reply where
  | ran (outcome : Outcome) (sink : Sink)
  | transpiled (answer : Except (List Fault) String)
  | parsed (answer : Except (List Fault) (List Stmt))

/-- Takes a step: the reply, and the session and the output afterwards. -/
def take (clock : Nat → Float) (session : Session) (sink : Sink) :
    Step → Reply × Session × Sink
  | .run fuel source =>
      let (outcome, sink, session) := session.run clock fuel sink source
      (.ran outcome sink, session, sink)
  | .transpile pretty source =>
      let (answer, session) := session.toScheme pretty source
      (.transpiled answer, session, sink)
  | .parse source =>
      let (answer, session) := session.parse source
      (.parsed answer, session, sink)

/-- The replies to steps that are taken one after the other. -/
def replies (clock : Nat → Float) : Session → Sink → List Step → List Reply
  | _, _, [] => []
  | session, sink, step :: rest =>
      let (reply, session, sink) := session.take clock sink step
      reply :: replies clock session sink rest

namespace Reply

/-- Whether the step has only read its source: that is so of every translation and of
every reading, and of a run if the program was refused. -/
def onlyReads : Reply → Bool
  | ran (.refused _) _ => true
  | ran _ _ => false
  | transpiled _ => true
  | parsed _ => true

theorem refused_of_onlyReads {outcome : Outcome} {sink : Sink}
    (h : (ran outcome sink).onlyReads) : ∃ faults, outcome = .refused faults := by
  cases outcome with
  | refused faults => exact ⟨faults, rfl⟩
  | _ => exact absurd h Bool.false_ne_true

/-- The reply without the numbers in its trees. -/
def unnumbered : Reply → Reply
  | ran outcome sink => ran outcome sink
  | transpiled answer => transpiled answer
  | parsed answer => parsed (answer.map (List.map (Stmt.renumber fun _ => 0)))

end Reply

/-! ### Leaving things out -/

section

variable {α : Type}

/-- The entries of a row that are marked. -/
def kept : List Bool → List α → List α
  | true :: marks, a :: rest => a :: kept marks rest
  | false :: marks, _ :: rest => kept marks rest
  | _, _ => []

/-- The entries of a row that are left out. -/
def dropped (marks : List Bool) (row : List α) : List α :=
  kept (marks.map not) row

@[simp] theorem kept_nil_left (row : List α) : kept [] row = [] := by
  cases row <;> rfl

@[simp] theorem kept_nil_right (marks : List Bool) : kept marks ([] : List α) = [] := by
  rcases marks with _ | ⟨_ | _, marks⟩ <;> rfl

end

/-! ### One step -/

variable {f : Nat → Nat} {n : Nat} {session short long : Session} {clock : Nat → Float}
  {sink : Sink}

theorem toScheme_session (session : Session) (pretty : Bool) (source : String) :
    (session.toScheme pretty source).2 = (session.parse source).2 := by
  rw [← analyse_session]
  unfold Session.toScheme
  split <;> rename_i h <;> rw [h]

/-- A run refuses a program exactly if the analysis does. -/
theorem run_refused {fuel : Nat} {source : String} {faults : List Fault}
    (h : (session.run clock fuel sink source).1 = .refused faults) :
    (session.run clock fuel sink source).2 = (sink, (session.parse source).2) := by
  rw [← analyse_session]
  unfold Session.run at h ⊢
  split at h
  · rename_i hresult
    rw [hresult]
  · exfalso
    revert h
    dsimp only [outcomeOf]
    split <;> exact Outcome.noConfusion

/-- A step that only reads uses up numbers and does nothing else. -/
theorem take_onlyReads {step : Step} (h : (session.take clock sink step).1.onlyReads) :
    (session.take clock sink step).2.2 = sink ∧
      ∃ lastId, session.lastId ≤ lastId ∧
        (session.take clock sink step).2.1 = { session with lastId := lastId } := by
  cases step with
  | run fuel source =>
      obtain ⟨faults, hrefused⟩ := Reply.refused_of_onlyReads h
      have hafter := run_refused hrefused
      exact ⟨congrArg Prod.fst hafter, _, parse_lastId_le session source,
        congrArg Prod.snd hafter⟩
  | transpile pretty source =>
      exact ⟨rfl, _, parse_lastId_le session source, toScheme_session session pretty source⟩
  | parse source => exact ⟨rfl, _, parse_lastId_le session source, rfl⟩

theorem Contained.take (h : session.Contained) (step : Step) :
    (session.take clock sink step).2.1.Contained := by
  cases step with
  | run fuel source => exact h.run clock fuel sink source
  | transpile pretty source =>
      show (session.toScheme pretty source).2.Contained
      rw [toScheme_session]
      exact h.parse source
  | parse source => exact h.parse source

/-- Trees of the same source are the same without their numbers. -/
theorem parse_unnumbered (h : long.lastId = short.lastId + n) (source : String) :
    (Reply.parsed (long.parse source).1).unnumbered
      = (Reply.parsed (short.parse source).1).unnumbered := by
  have hconst : Stmt.renumber (fun _ => 0) ∘ Stmt.relabel (· + n) id
      = Stmt.renumber fun _ => 0 := by
    funext s
    rw [Function.comp_apply, Stmt.renumber_eq_relabel, Stmt.renumber_eq_relabel,
      Stmt.relabel_relabel]
    rfl
  rw [parse_shift h]
  unfold Reply.unnumbered
  cases (short.parse source).1 with
  | error faults => rfl
  | ok program => simp only [Except.map, List.map_map, hconst]

/-- A step that both take is replied to alike. -/
theorem Mirrors.take (h : Mirrors f n short long) (clock : Nat → Float) (sink : Sink)
    (step : Step) :
    (long.take clock sink step).1.unnumbered = (short.take clock sink step).1.unnumbered ∧
      (long.take clock sink step).2.2 = (short.take clock sink step).2.2 ∧
      Mirrors f n (short.take clock sink step).2.1 (long.take clock sink step).2.1 := by
  cases step with
  | run fuel source =>
      obtain ⟨houtcome, hsink, hmirrors⟩ := h.run clock fuel sink source
      have hreply : Reply.ran (long.run clock fuel sink source).1
          (long.run clock fuel sink source).2.1
          = .ran (short.run clock fuel sink source).1 (short.run clock fuel sink source).2.1 := by
        rw [houtcome, hsink]
      exact ⟨hreply, hsink, hmirrors⟩
  | transpile pretty source =>
      have hmirrors := h.parse source
      rw [← toScheme_session short pretty, ← toScheme_session long pretty] at hmirrors
      have hanswer := congrArg Prod.fst (toScheme_shift h.lastId pretty source)
      exact ⟨congrArg Reply.transpiled hanswer, rfl, hmirrors⟩
  | parse source => exact ⟨parse_unnumbered h.lastId source, rfl, h.parse source⟩

/-! ### All steps -/

/-- From mirrored sessions on, the steps that are kept are replied to alike. -/
theorem Mirrors.replies (steps : List Step) : ∀ {f : Nat → Nat} {n : Nat} {short long : Session}
    {sink : Sink} {marks : List Bool}, Mirrors f n short long → short.Contained →
    (∀ reply ∈ dropped marks (replies clock long sink steps), reply.onlyReads) →
    (kept marks (Session.replies clock long sink steps)).map Reply.unnumbered
      = (Session.replies clock short sink (kept marks steps)).map Reply.unnumbered := by
  induction steps with
  | nil =>
      intro f n short long sink marks _ _ _
      rw [Session.replies, kept_nil_right, kept_nil_right]
      rfl
  | cons step rest ih =>
      intro f n short long sink marks h hcontained hreads
      cases marks with
      | nil =>
          rw [kept_nil_left, kept_nil_left]
          rfl
      | cons mark marks =>
          cases mark with
          | true =>
              obtain ⟨hreply, hsink, hmirrors⟩ := h.take clock sink step
              have hreads : ∀ reply ∈ dropped marks (Session.replies clock
                  (long.take clock sink step).2.1 (long.take clock sink step).2.2 rest),
                  reply.onlyReads := hreads
              rw [hsink] at hreads
              have hrest := ih hmirrors (hcontained.take step) hreads
              simp only [Session.replies, kept, List.map_cons, hreply, hsink, hrest]
          | false =>
              have hread := hreads _ List.mem_cons_self
              obtain ⟨hsink, lastId, hle, hafter⟩ := take_onlyReads hread
              obtain ⟨g, m, hmirrors⟩ := h.skip hcontained hle
              have hreads : ∀ reply ∈ dropped marks (Session.replies clock
                  (long.take clock sink step).2.1 (long.take clock sink step).2.2 rest),
                  reply.onlyReads := fun reply hmem => hreads reply (List.mem_cons_of_mem _ hmem)
              rw [hsink, hafter] at hreads
              have hrest := ih hmirrors hcontained hreads
              simp only [Session.replies, kept, hsink, hafter, hrest]

/-- A translation is what it would be in a session of its own. -/
theorem replies_transpile (steps : List Step) : ∀ (session : Session) (sink : Sink)
    (pretty : Bool) (source : String) (reply : Reply),
    (Step.transpile pretty source, reply) ∈ steps.zip (replies clock session sink steps) →
    reply = .transpiled (Session.new.toScheme pretty source).1 := by
  induction steps with
  | nil =>
      intro session sink pretty source reply hmem
      exact absurd hmem List.not_mem_nil
  | cons step rest ih =>
      intro session sink pretty source reply hmem
      rw [replies, List.zip_cons_cons, List.mem_cons] at hmem
      rcases hmem with hfirst | hmem
      · obtain ⟨rfl, rfl⟩ := Prod.mk.inj hfirst
        have hnumbers : session.lastId = Session.new.lastId + session.lastId :=
          (Nat.zero_add session.lastId).symm
        have hanswer := congrArg Prod.fst (toScheme_shift hnumbers pretty source)
        exact congrArg Reply.transpiled hanswer
      · exact ih _ _ pretty source reply hmem

/-- **A session does not notice what it only reads.**  Leaving out any translations,
readings and refused programs changes no other reply, up to the numbers in trees: every
run that is kept has the same outcome and leaves the output in the same state.  And each
translation is that of a new session. -/
theorem reading_unnoticed (clock : Nat → Float) (sink : Sink) (steps : List Step) :
    (∀ marks : List Bool,
      (∀ reply ∈ dropped marks (replies clock .new sink steps), reply.onlyReads) →
      (kept marks (replies clock .new sink steps)).map Reply.unnumbered
        = (replies clock .new sink (kept marks steps)).map Reply.unnumbered) ∧
    ∀ (pretty : Bool) (source : String) (reply : Reply),
      (Step.transpile pretty source, reply) ∈ steps.zip (replies clock .new sink steps) →
      reply = .transpiled (Session.new.toScheme pretty source).1 := by
  refine ⟨fun marks hreads => ?_, replies_transpile steps .new sink⟩
  exact mirrors_new.replies steps contained_new hreads

/-- A refused program, a reading and a translation are left out in front of a run. -/
theorem readings_left_out :
    let clock : Nat → Float := fun _ => 0
    let sink : Sink := .working ""
    let steps : List Step := [.run 9 "print;", .run 99 "var a = 1; fun f() \x7b return a; \x7d",
      .parse "f(", .transpile false "f();", .run 99 "print f() == 1;"]
    let marks := [false, true, false, false, true]
    (∀ reply ∈ dropped marks (replies clock .new sink steps), reply.onlyReads) ∧
      (kept marks (replies clock .new sink steps)).map Reply.unnumbered
        = (replies clock .new sink (kept marks steps)).map Reply.unnumbered := by
  intro clock sink steps marks
  have hrefused : Session.new.analyse "print;"
      = (.error [.atToken ⟨.semicolon, ";", 1⟩ (.expected "expression")], .new) := by
    unfold Session.analyse Session.parse
    cbv
  have hreads : ∀ reply ∈ dropped marks (replies clock .new sink steps), reply.onlyReads := by
    intro reply hmem
    simp only [steps, marks, replies, dropped, List.map_cons, Bool.not_false, Bool.not_true, kept,
      List.mem_cons] at hmem
    rcases hmem with rfl | rfl | rfl | hmem
    · show (Reply.ran (Session.run clock 9 sink .new "print;").1 _).onlyReads
      unfold Session.run
      rw [hrefused]
      rfl
    · rfl
    · rfl
    · exact absurd hmem List.not_mem_nil
  exact ⟨hreads, (reading_unnoticed clock sink steps).1 marks hreads⟩

end Lox.Session
