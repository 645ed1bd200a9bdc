/-
Whatever is reported points into a source.

The faults that reading and scoping find are at tokens of the source that is read, and a failure
is at a token of the source that is run or of one that was run before.  The two operators that
stand for an inequality are tokens of no source: those that stand there themselves are never at
fault either, once they are part of a tree.
-/
import Mathlib
import Lox.Proofs.Grammar.Built
import Lox.Proofs.Machine.Words
import Lox.Proofs.Scope.Located
import Lox.Proofs.Session.Invariants

namespace Lox

variable {P : Token → Prop} {source : String}

/-- A token of a source that something in a tree can be blamed on: it is none of the two
operators that an inequality is split into. -/
structure Blamable (source : String) (token : Token) : Prop where
  scanned : token ∈ (Lexed.ofSource source).tokens
  not_bang : token.kind ≠ .bang
  not_equalEqual : token.kind ≠ .equalEqual

namespace Session

open Machine

variable {session after : Session} {program : List Stmt} {found : List (Nat × Nat)}
  {sources : List String}

/-- The tokens of a source that can be blamed are allowed in the trees that are read from it. -/
theorem allows_of_blamable (h : ∀ token, Blamable source token → P token) :
    Grammar.Derives.Allows (.blamed P) (Lexed.ofSource source).tokens :=
  Grammar.Derives.allows_blamed fun token htoken hbang hequal => h token ⟨htoken, hbang, hequal⟩

/-! ### What was run in a session -/

/-- Sessions together with the sources that were accepted and run in them, the earlier ones
first. -/
inductive Ran : List String → Session → Prop
  | new : Ran [] .new
  | parse {sources : List String} {session : Session} (h : Ran sources session) (source : String) :
      Ran sources (session.parse source).2
  | refused {sources : List String} {session : Session} {faults : List Fault}
      (h : Ran sources session) (clock : Nat → Float) (fuel : Nat) (sink : Sink) (source : String)
      (hrefused : (session.run clock fuel sink source).1 = .refused faults) :
      Ran sources (session.run clock fuel sink source).2.2
  | ended {sources : List String} {session after : Session} {source : String}
      {program : List Stmt} {found : List (Nat × Nat)} (h : Ran sources session)
      (haccepts : session.Accepts source program found after) (clock : Nat → Float) (fuel : Nat)
      (sink : Sink) (hended : (session.run clock fuel sink source).1 ≠ .outOfFuel) :
      Ran (sources ++ [source]) (session.run clock fuel sink source).2.2

/-- Every session has had some sources run in it. -/
theorem Reachable.ran (h : session.Reachable) : ∃ sources, Ran sources session := by
  induction h with
  | new => exact ⟨[], .new⟩
  | parse _ source ih =>
      obtain ⟨sources, hran⟩ := ih
      exact ⟨sources, hran.parse source⟩
  | @run session _ clock fuel sink source hended ih =>
      obtain ⟨sources, hran⟩ := ih
      rcases session.run_cases clock fuel sink source with
        ⟨-, faults, hrefused⟩ | ⟨program, found, after, haccepts, -⟩
      · exact ⟨sources, hran.refused clock fuel sink source hrefused⟩
      · exact ⟨_, hran.ended haccepts clock fuel sink hended⟩

/-! ### Where the trees come from -/

/-- An accepted program and everything that the session holds is made of tokens that can be
blamed. -/
theorem Accepts.starts_worded (haccepts : session.Accepts source program found after)
    (hmemory : session.memory.All fun closure => closure.declaration.Worded (.blamed P))
    (hsource : ∀ token, Blamable source token → P token) (sink : Sink) :
    (after.starts program sink).Worded P := by
  have hprogram : ∀ s ∈ program, s.Worded (.blamed P) :=
    (parse_ok haccepts.read.1).2.worded (allows_of_blamable hsource)
  refine ⟨⟨trivial, List.forall_mem_singleton.mpr hprogram⟩,
    ⟨?_, trivial, List.forall_mem_singleton.mpr trivial⟩⟩
  show after.memory.All _
  rw [haccepts.memory_eq]
  exact hmemory

/-- The functions that a session holds are made of tokens of the sources that were run in it. -/
theorem Ran.worded (h : Ran sources session)
    (hP : ∀ source ∈ sources, ∀ token, Blamable source token → P token) :
    session.memory.All fun closure => closure.declaration.Worded (.blamed P) := by
  induction h with
  | new => exact Memory.All.initial
  | parse _ _ ih => exact ih hP
  | @refused sources session faults _ clock fuel sink source hrefused ih =>
      rcases session.run_cases clock fuel sink source with
        ⟨hread, -⟩ | ⟨program, found, after, -, hrun⟩
      · rw [hread]
        exact ih hP
      · rw [hrun] at hrefused
        exact absurd hrefused (outcomeOf_ne_refused _ faults)
  | ended _ haccepts clock fuel sink _ ih =>
      rw [List.forall_mem_append, List.forall_mem_singleton] at hP
      rw [haccepts.run_eq]
      exact (run_worded (haccepts.starts_worded (ih hP.1) hP.2 sink) fuel).functions.memory

/-- A failure is at a token of the source that is run, or of one that was run before. -/
theorem Ran.failed_token (h : Ran sources session) {clock : Nat → Float} {fuel : Nat}
    {sink : Sink} {failure : Failure}
    (hfailed : (session.run clock fuel sink source).1 = .failed failure) :
    ∃ earlier ∈ sources ++ [source], Blamable earlier failure.token := by
  let P (token : Token) : Prop := ∃ earlier ∈ sources ++ [source], Blamable earlier token
  have hP : ∀ earlier ∈ sources ++ [source], ∀ token, Blamable earlier token → P token :=
    fun earlier hearlier token htoken => ⟨earlier, hearlier, htoken⟩
  rw [List.forall_mem_append, List.forall_mem_singleton] at hP
  rcases session.run_cases clock fuel sink source with
    ⟨-, faults, hrefused⟩ | ⟨program, found, after, haccepts, hrun⟩
  · rw [hrefused] at hfailed
    exact absurd hfailed Outcome.noConfusion
  · rw [hrun] at hfailed
    exact run_failed_token (haccepts.starts_worded (h.worded hP.1) hP.2 sink)
      (ended_of_failed hfailed)

/-! ### What is reported -/

/-- **Everything that is reported points into a source.**

  * Of any source, each fault that reading finds is at one of its tokens or at its end, and each
    fault that the analysis finds is at one of its tokens.  The analysis reports neither of the
    two operators that stand for an inequality.
  * In any session a failure is at a token of the source that is run or of one that was accepted
    and run before, and it is neither of the two operators.
  * There is no session without such a history. -/
theorem errors_located :
    (∀ (source : String) (lastId : Nat),
      let lexed := Lexed.ofSource source
      let parsed := Grammar.parse lexed.tokens lexed.endLine lastId
      (∀ fault ∈ parsed.faults, fault.PointsAt (· ∈ lexed.tokens) lexed.endLine) ∧
        ∀ fault ∈ (Scope.analyse parsed.program).faults,
          ∃ token, Blamable source token ∧ ∃ cause, fault = Fault.atToken token cause) ∧
    (∀ (sources : List String) (session : Session), Ran sources session →
      ∀ (clock : Nat → Float) (fuel : Nat) (sink : Sink) (source : String) (failure : Failure),
      (session.run clock fuel sink source).1 = .failed failure →
      ∃ earlier ∈ sources ++ [source], Blamable earlier failure.token) ∧
    ∀ session : Session, session.Reachable → ∃ sources, Ran sources session := by
  refine ⟨fun source lastId => ?_, fun sources session hran clock fuel sink source failure hfailed
    => hran.failed_token hfailed, fun session hreachable => hreachable.ran⟩
  intro lexed parsed
  have hallows : Grammar.Derives.Allows (.blamed (Blamable source)) lexed.tokens :=
    allows_of_blamable fun _ htoken => htoken
  obtain ⟨hfaults, hprogram⟩ := Grammar.parse_comesTo hallows lexed.endLine lastId
  refine ⟨hfaults, fun fault hfault => ?_⟩
  obtain ⟨token, hrole, hcause⟩ := Scope.analyse_located hprogram fault hfault
  exact ⟨token, hrole.elim id id, hcause⟩

/-- A function of an earlier source is called, passes an inequality and fails at its own token,
which is none of the later source. -/
theorem failure_in_earlier_source : ∃ session,
    let earlier := "fun f(a) \x7b if (a != nil) -a; \x7d"
    Ran [earlier] session ∧
      (session.run (fun _ => 0) 30 (.working "") "f(true);").1
        = .failed ⟨⟨.minus, "-", 1⟩, .operandNotNumber⟩ ∧
      (⟨.minus, "-", 1⟩ : Token) ∉ (Lexed.ofSource "f(true);").tokens ∧
      ∃ source ∈ [earlier, "f(true);"], Blamable source ⟨.minus, "-", 1⟩ := by
  let earlier := "fun f(a) \x7b if (a != nil) -a; \x7d"
  have haccepts : Session.new.Accepts earlier
      [.function ⟨⟨.identifier, "f", 1⟩, [⟨.identifier, "a", 1⟩], [
        .ifElse (.unary ⟨.bang, "!", 1⟩ (.binary ⟨.equalEqual, "==", 1⟩
          (.use ⟨⟨.identifier, "a", 1⟩, 1⟩) (.literal .nil)))
          (.expression (.unary ⟨.minus, "-", 1⟩ (.use ⟨⟨.identifier, "a", 1⟩, 2⟩))) none]⟩]
      [(1, 0), (2, 0)] { Session.new with lastId := 2 } := by
    unfold Accepts
    cbv
  have hended : (Session.new.run (fun _ => 0) 3 (.working "") earlier).1 = .success := by
    rw [haccepts.run_eq]
    cbv
  have hran := Ran.new.ended haccepts (fun _ => 0) 3 (.working "")
    (ne_of_eq_of_ne hended Outcome.noConfusion)
  have hfailed : ((Session.new.run (fun _ => 0) 3 (.working "") earlier).2.2.run (fun _ => 0) 30
      (.working "") "f(true);").1 = .failed ⟨⟨.minus, "-", 1⟩, .operandNotNumber⟩ := by
    rw [haccepts.run_eq]
    cbv
  exact ⟨_, hran, hfailed, by decide +kernel, errors_located.2.1 _ _ hran _ _ _ _ _ hfailed⟩

end Session

end Lox
