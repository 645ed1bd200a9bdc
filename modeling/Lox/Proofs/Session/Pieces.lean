/-
A program in pieces.

A session can be fed a program piece by piece.  As long as each piece is accepted and comes
to its end, this is the same as running all of it at once, with the pieces joined by
newlines: the words, the tree and the distances of the whole are those of the pieces put
together, and the machine comes to each piece in the state in which that piece was run.
Only the lines are other ones, since those of a piece are counted from its own start.

So there are two steps.  With empty lines in front of it each piece stands on the lines that it
has in the whole text, and being fed the pieces in these places is the same but for the lines
(`Fed.relined`).  And then the whole text is these pieces to the word.  `Whole` says what is
known of a session that was fed some pieces: which one program it has run, and where a run of
that program goes on if there is more of it.
-/
import Mathlib
import Lox.Proofs.Machine.Sequencing
import Lox.Proofs.Session.Jumps
import Lox.Proofs.Session.Lines
import Lox.Proofs.Session.Origins

namespace Lox.Session

open Scope Machine

variable {session after : Session} {source : String} {program : List Stmt}
  {found : List (Nat × Nat)} {clock : Nat → Float} {output sink : Sink}
  {sources texts : List String}

/-! ### Pieces -/

/-- What a new session accepts, every session accepts. -/
theorem Accepts.elsewhere (h : Session.new.Accepts source program found after)
    (session : Session) : ∃ program found after, session.Accepts source program found after := by
  have hnumbers : session.lastId = Session.new.lastId + session.lastId :=
    (Nat.zero_add session.lastId).symm
  have hanalyse := analyse_shift hnumbers source
  rw [h] at hanalyse
  exact ⟨_, _, _, hanalyse⟩

/-- What has been run with success was accepted. -/
theorem accepts_of_success {fuel : Nat}
    (hsuccess : (session.run clock fuel sink source).1 = .success) :
    ∃ program found after, session.Accepts source program found after := by
  rcases session.run_cases clock fuel sink source with
    ⟨-, faults, hrefused⟩ | ⟨program, found, after, haccepts, -⟩
  · rw [hsuccess] at hrefused
    exact absurd hrefused Outcome.noConfusion
  · exact ⟨program, found, after, haccepts⟩

/-- A session that was fed these sources one after the other, what each run has printed, and
the output afterwards.  All runs were successful. -/
inductive Fed (clock : Nat → Float) (output : Sink) :
    List String → List String → Session → Sink → Prop
  | nothing : Fed clock output [] [] .new output
  | piece {sources texts : List String} {session : Session} {sink : Sink} {fuel : Nat}
      {source text : String} (h : Fed clock output sources texts session sink)
      (hsuccess : (session.run clock fuel sink source).1 = .success)
      (hprinted : (session.run clock fuel sink source).2.1.text = sink.text ++ text) :
      Fed clock output (sources ++ [source]) (texts ++ [text])
        (session.run clock fuel sink source).2.2 (session.run clock fuel sink source).2.1

/-- A piece that writes nothing leaves the output as it is. -/
theorem Fed.silent {fuel : Nat} (h : Fed clock output sources texts session sink)
    (hsuccess : (session.run clock fuel sink source).1 = .success)
    (hsink : (session.run clock fuel sink source).2.1 = sink) :
    Fed clock output (sources ++ [source]) (texts ++ [""])
      (session.run clock fuel sink source).2.2 sink := by
  have hprinted : (session.run clock fuel sink source).2.1.text = sink.text ++ "" := by
    rw [hsink, String.append_empty]
  have hpiece := h.piece hsuccess hprinted
  rwa [hsink] at hpiece

/-- The last text comes behind all others. -/
theorem append_join (printed : String) (texts : List String) (text : String) :
    printed ++ String.join (texts ++ [text]) = printed ++ String.join texts ++ text := by
  rw [String.join_append, String.join_cons, String.join_nil, String.append_empty,
    String.append_assoc]

/-- What all pieces have printed is what is in the output. -/
theorem Fed.printed (h : Fed clock output sources texts session sink) :
    sink.text = output.text ++ String.join texts := by
  induction h with
  | nothing => exact String.append_empty.symm
  | piece _ _ hprinted ih => rw [hprinted, ih, append_join]

/-- The pieces are fed on other lines: all goes the same, and the functions that the session
remembers are on these lines. -/
theorem Fed.relined {l : Nat → Nat} {sources' : List String}
    (h : Fed clock output sources texts session sink)
    (hlines : List.Forall₂ (Lexed.Relined l) sources' sources) :
    ∃ placed, Fed clock output sources' texts placed sink ∧ session = placed.reline l := by
  induction h generalizing sources' with
  | nothing =>
      cases hlines
      exact ⟨.new, .nothing, reline_new.symm⟩
  | @piece sources texts session sink fuel source text _ hsuccess hprinted ih =>
      obtain ⟨placed, hfed, rfl⟩ := ih (List.forall₂_take_append _ _ _ hlines)
      obtain ⟨source', rest, hsource, hrest, hlast⟩ :=
        List.forall₂_cons_right_iff.mp (List.forall₂_drop_append _ _ _ hlines)
      obtain rfl := List.forall₂_nil_right_iff.mp hrest
      obtain ⟨_, _, _, haccepts⟩ := accepts_of_success hsuccess
      rw [run_relined haccepts hsource clock fuel sink] at hsuccess hprinted ⊢
      rw [← List.take_append_drop sources.length sources', hlast]
      exact ⟨_, hfed.piece (Outcome.reline_eq_success_iff.mp hsuccess) hprinted, rfl⟩

/-- The tokens of sources one after the other. -/
def tokensOf (sources : List String) : List Token :=
  sources.flatMap fun source => (Lexed.ofSource source).tokens

/-- A session has run these sources as one program: its tokens are theirs, its distances are
those of the session, and with more statements behind it, it comes to these in the state that
the session is in. -/
structure Whole (clock : Nat → Float) (output : Sink) (sources : List String)
    (session : Session) (sink : Sink) (program : List Stmt) (found : List (Nat × Nat)) :
    Prop where
  reachable : session.Reachable
  clean : ∀ source ∈ sources, (Lexed.ofSource source).faults = []
  derives : Grammar.Derives.Program 0 (tokensOf sources) session.lastId program
  analysed : Scope.analyse program = ⟨found, []⟩
  locals : session.locals = Locals.extend ∅ found
  /-- A run of the whole text knows the distances of later pieces from the beginning. -/
  continues : ∀ r : Resolution, session.resolution.Extends r → ∀ behind : List Stmt, ∃ steps,
    Machine.run ⟨r.locals, clock⟩ steps
        (.start (program ++ behind) Memory.globals 0 Memory.initial output)
      = .start behind session.env session.depth session.memory sink

theorem whole_new : Whole clock output [] .new output [] [] :=
  ⟨.new, fun _ h => absurd h List.not_mem_nil, .none, rfl, rfl, fun _ _ _ => ⟨0, rfl⟩⟩

/-- The tokens, the tree and the distances of an accepted piece come behind those before. -/
theorem Whole.accepted {p : List Stmt} {others : List (Nat × Nat)}
    (h : Whole clock output sources session sink program found)
    (haccepts : session.Accepts source p others after) :
    (∀ other ∈ sources ++ [source], (Lexed.ofSource other).faults = []) ∧
      Grammar.Derives.Program 0 (tokensOf (sources ++ [source])) after.lastId (program ++ p) ∧
      Scope.analyse (program ++ p) = ⟨found ++ others, []⟩ ∧
      after.locals.extend others = Locals.extend ∅ (found ++ others) := by
  refine ⟨?_, ?_, ?_, ?_⟩
  · rw [List.forall_mem_append, List.forall_mem_singleton]
    exact ⟨h.clean, haccepts.clean⟩
  · have htokens : tokensOf (sources ++ [source])
        = tokensOf sources ++ (Lexed.ofSource source).tokens := by
      rw [tokensOf, List.flatMap_append, List.flatMap_singleton]
      rfl
    rw [htokens]
    exact h.derives.append (parse_ok haccepts.read.1).2
  · obtain ⟨-, hfaults, rfl⟩ := haccepts.read
    rw [analyse_append, h.analysed]
    show Findings.mk _ _ = Findings.mk _ _
    rw [hfaults, List.append_nil]
  · rw [haccepts.locals_eq, h.locals, Locals.extend, Locals.extend, Locals.extend,
      List.foldl_append]

/-- A piece that has ended successfully has ended normally. -/
theorem ended_normally {fuel : Nat} {s : State} (h : session.Reachable)
    (haccepts : session.Accepts source program found after)
    (hs : s = Machine.run ⟨after.locals.extend found, clock⟩ fuel (after.starts program sink))
    (hsuccess : outcomeOf s = .success) : s.ended? = some .normal := by
  have horderly : Orderly s :=
    Visited.orderly ⟨session, after, source, program, found, clock, sink, fuel, h, haccepts,
      rfl, hs⟩
  cases hended : s.ended? with
  | none => simp [outcomeOf, hended] at hsuccess
  | some c =>
      obtain ⟨hcontrol, hpending⟩ := ended?_eq_some_iff.mp hended
      rcases horderly.top hcontrol (.inl hpending) with rfl | ⟨failure, rfl⟩
      · rfl
      · simp [outcomeOf, hended] at hsuccess

/-- A piece that is run to its end leaves a session that has run all of the pieces as one
program. -/
theorem Whole.piece {fuel : Nat}
    (h : Whole clock output sources session sink program found)
    (hsuccess : (session.run clock fuel sink source).1 = .success) :
    ∃ program found, Whole clock output (sources ++ [source])
      (session.run clock fuel sink source).2.2 (session.run clock fuel sink source).2.1
      program found := by
  have hreachable : (session.run clock fuel sink source).2.2.Reachable :=
    h.reachable.run clock fuel sink source (by rw [hsuccess]; exact Outcome.noConfusion)
  obtain ⟨p, others, after, haccepts⟩ := accepts_of_success hsuccess
  obtain ⟨hclean, hderives, hanalysed, hlocals⟩ := h.accepted haccepts
  rw [haccepts.run_eq] at hsuccess hreachable ⊢
  dsimp only at hsuccess hreachable ⊢
  refine ⟨program ++ p, found ++ others, hreachable, hclean, hderives, hanalysed, hlocals,
    fun r hext behind => ?_⟩
  have hended := ended_normally h.reachable haccepts rfl hsuccess
  -- More distances than those of this piece and of earlier ones make no difference to its run.
  have hsame : Machine.run ⟨r.locals, clock⟩ fuel (after.starts p sink)
      = Machine.run ⟨after.locals.extend others, clock⟩ fuel (after.starts p sink) :=
    run_extend (h.reachable.sound.starts haccepts sink) hext fuel
  obtain ⟨before, hbefore⟩ := h.continues r (haccepts.extends.trans hext) (p ++ behind)
  rw [← hsame] at hended ⊢
  obtain ⟨steps, hsteps⟩ := run_continues behind fuel hended
  rw [haccepts.after_eq] at hsteps
  refine ⟨before + steps, ?_⟩
  rw [List.append_assoc, run_add, hbefore, hsteps, haccepts.after_eq]
  rfl

theorem Fed.whole (h : Fed clock output sources texts session sink) :
    ∃ program found, Whole clock output sources session sink program found := by
  induction h with
  | nothing => exact ⟨[], [], whole_new⟩
  | piece _ hsuccess _ ih =>
      obtain ⟨program, found, hwhole⟩ := ih
      exact hwhole.piece hsuccess

/-! ### The whole text -/

variable {last : String}

/-- With the pieces before it done, a run of the last piece is where a run goes on of any text
that has all their words. -/
theorem Whole.run_on {p : List Stmt} {others : List (Nat × Nat)} {text : String}
    (h : Whole clock output sources session sink program found)
    (haccepts : session.Accepts last p others after)
    (hclean : (Lexed.ofSource text).faults = [])
    (htokens : (Lexed.ofSource text).tokens = tokensOf (sources ++ [last])) :
    ∃ all found whole, Session.new.Accepts text all found whole ∧ ∃ steps, ∀ fuel,
      Machine.run ⟨after.locals.extend others, clock⟩ fuel (after.starts p sink)
        = Machine.run ⟨whole.locals.extend found, clock⟩ (steps + fuel)
            (whole.starts all output) := by
  obtain ⟨-, hderives, hanalysed, hlocals⟩ := h.accepted haccepts
  rw [← htokens] at hderives
  obtain ⟨steps, hsteps⟩ := h.continues (after.resolutionWith others) haccepts.extends p
  have hsteps : Machine.run ⟨after.locals.extend others, clock⟩ steps
      (.start (program ++ p) Memory.globals 0 Memory.initial output)
        = .start p session.env session.depth session.memory sink := hsteps
  refine ⟨program ++ p, _, _, accepts_of_derives hclean hderives hanalysed, steps, fun fuel => ?_⟩
  have hstarts : after.starts p sink
      = .start p session.env session.depth session.memory sink := by
    rw [haccepts.after_eq]
    rfl
  rw [run_add]
  show _ = Machine.run ⟨Locals.extend ∅ (found ++ others), clock⟩ fuel
    (Machine.run ⟨Locals.extend ∅ (found ++ others), clock⟩ steps
      (.start (program ++ p) Memory.globals 0 Memory.initial output))
  rw [← hlocals, hsteps, hstarts]

/-! ### How pieces end -/

/-- The last piece ends as the whole text does: by success, or by the same failure at the same
word, which has its line in the piece that it is from and its line in the whole text. -/
inductive EndsAlike (pieces : List String) : (piece whole : Outcome) → Prop
  | success : EndsAlike pieces .success .success
  | failed {token : Token} {cause : Failure.Cause}
      (hscanned : token ∈ (Lexed.ofSource ("\n".intercalate pieces)).tokens) :
      EndsAlike pieces (.failed ⟨token.reline (Lexed.lineWithin pieces), cause⟩)
        (.failed ⟨token, cause⟩)

theorem endsAlike_of_reline {pieces : List String} {s : State}
    (hscanned : ∀ failure, s.ended? = some (.failed failure) →
      failure.token ∈ (Lexed.ofSource ("\n".intercalate pieces)).tokens)
    (hended : outcomeOf s ≠ .outOfFuel) :
    EndsAlike pieces ((outcomeOf s).reline (Lexed.lineWithin pieces)) (outcomeOf s) := by
  obtain ⟨c, hc⟩ := ended_of_outcome hended
  rw [outcomeOf, hc]
  cases c with
  | failed failure => exact .failed (hscanned failure hc)
  | _ => exact .success

/-- The run of the last piece, the run of it in its place, and the run of the whole text.  The
one in its place ends as the whole text does, to the line of the word at which it fails. -/
structure RunsAlike (pieces texts : List String) (output sink : Sink)
    (piece placed whole : Outcome × Sink × Session) : Prop where
  outcome : EndsAlike pieces piece.1 whole.1
  inPlace : placed.1 = whole.1
  sinks : piece.2.1 = whole.2.1 ∧ placed.2.1 = whole.2.1
  output : ∃ text, piece.2.1.text = sink.text ++ text ∧
    whole.2.1.text = output.text ++ String.join (texts ++ [text])

/-- In a new session a program fails at one of its words. -/
theorem Accepts.failed_token (h : Session.new.Accepts source program found after) {fuel : Nat}
    {failure : Failure}
    (hended : (Machine.run ⟨after.locals.extend found, clock⟩ fuel
      (after.starts program output)).ended? = some (.failed failure)) :
    failure.token ∈ (Lexed.ofSource source).tokens := by
  have hfailed : (Session.new.run clock fuel output source).1 = .failed failure := by
    rw [h.run_eq]
    dsimp only [outcomeOf]
    rw [hended]
  obtain ⟨earlier, hearlier, hblamable⟩ := Ran.new.failed_token hfailed
  obtain rfl : earlier = source := List.mem_singleton.mp hearlier
  exact hblamable.scanned

/-- A program adds some text to the output. -/
theorem Accepts.prints (h : session.Accepts source program found after) (clock : Nat → Float)
    (fuel : Nat) (sink : Sink) :
    ∃ text, (session.run clock fuel sink source).2.1.text = sink.text ++ text := by
  rw [h.run_eq]
  exact run_prints _ fuel

/-- What a program has come to at its end, it comes to with any more fuel. -/
theorem run_of_more {fuel more : Nat} (hle : fuel ≤ more)
    (hended : (session.run clock fuel sink source).1 ≠ .outOfFuel) :
    session.run clock more sink source = session.run clock fuel sink source := by
  cases hresult : session.analyse source with
  | mk result after =>
      cases result with
      | error faults =>
          unfold Session.run
          rw [hresult]
      | ok accepted =>
          obtain ⟨program, found⟩ := accepted
          have haccepts : session.Accepts source program found after := hresult
          rw [haccepts.run_eq] at hended
          obtain ⟨c, hc⟩ := ended_of_outcome hended
          rw [haccepts.run_eq, haccepts.run_eq, run_mono hle hc]

/-- The pieces can as well be fed in their places, and then the last one is run there as it is
run here, up to the lines. -/
theorem Fed.in_place (hfed : Fed clock output sources texts session sink)
    (haccepts : Session.new.Accepts last program found after) :
    ∃ placed there others middle, Fed clock output (Lexed.inPlace 0 sources) texts placed sink ∧
      session = placed.reline (Lexed.lineWithin (sources ++ [last])) ∧
      placed.Accepts (Lexed.below (Lexed.lineCount sources) last) there others middle ∧
      ∀ fuel, session.run clock fuel sink last =
        let run := placed.run clock fuel sink (Lexed.below (Lexed.lineCount sources) last)
        (run.1.reline (Lexed.lineWithin (sources ++ [last])), run.2.1,
          run.2.2.reline (Lexed.lineWithin (sources ++ [last]))) := by
  have hlines : ∀ line, 0 < line → Lexed.lineWithin (sources ++ [last]) line
      = Lexed.lineWithin (sources ++ [last]) (line - 0) := fun _ _ => rfl
  obtain ⟨hsources, hlast⟩ := Lexed.relined_inPlace hlines
  rw [Nat.zero_add] at hlast
  obtain ⟨placed, hplaced, rfl⟩ := hfed.relined hsources
  obtain ⟨_, _, _, haccepted⟩ := haccepts.elsewhere (placed.reline _)
  obtain ⟨there, hthere, -⟩ := haccepted.of_relined hlast
  exact ⟨placed, there, _, _, hplaced, rfl, hthere,
    fun fuel => run_relined haccepted hlast clock fuel sink⟩

/-- The whole text needs some steps for the pieces before the last one, and then the runs go
along with each other. -/
theorem Fed.run_last (hfed : Fed clock output sources texts session sink)
    (hclosed : ∀ source ∈ sources, ¬Lexed.EndsInComment source)
    (haccepts : Session.new.Accepts last program found after) :
    ∃ placed, Fed clock output (Lexed.inPlace 0 sources) texts placed sink ∧
      session = placed.reline (Lexed.lineWithin (sources ++ [last])) ∧ ∃ steps, ∀ fuel,
        let piece := session.run clock fuel sink last
        let inPlace := placed.run clock fuel sink (Lexed.below (Lexed.lineCount sources) last)
        let whole :=
          Session.new.run clock (steps + fuel) output ("\n".intercalate (sources ++ [last]))
        (whole.1 = .outOfFuel → piece.1 = .outOfFuel) ∧
          (whole.1 ≠ .outOfFuel →
            RunsAlike (sources ++ [last]) texts output sink piece inPlace whole) := by
  obtain ⟨placed, there, others, middle, hplaced, hlines, hthere, hpiece⟩ :=
    hfed.in_place haccepts
  obtain ⟨_, _, hbefore⟩ := hfed.whole
  obtain ⟨_, _, hwhole⟩ := hplaced.whole
  obtain ⟨hclean, hwords⟩ := Lexed.ofSource_joined 0 sources last hbefore.clean hclosed
    haccepts.clean
  have htokens : (Lexed.ofSource ("\n".intercalate (sources ++ [last]))).tokens
      = tokensOf (Lexed.inPlace 0 sources ++ [Lexed.below (Lexed.lineCount sources) last]) := by
    rw [Lexed.inPlace_append, Nat.zero_add] at hwords
    exact (Token.map_reline_by_id _).symm.trans hwords
  obtain ⟨all, known, whole, hall, steps, hrun⟩ := hwhole.run_on hthere hclean htokens
  refine ⟨placed, hplaced, hlines, steps, fun fuel => ?_⟩
  obtain ⟨text, htext⟩ := hthere.prints clock fuel sink
  -- In its place the last piece is where the whole text goes on, and there it has its own lines.
  rw [hthere.run_eq, hrun fuel] at htext
  dsimp only
  rw [hpiece fuel, hthere.run_eq, hrun fuel, hall.run_eq]
  dsimp only
  refine ⟨fun hout => ?_, fun hended => ⟨?_, rfl, ⟨rfl, rfl⟩, text, htext, ?_⟩⟩
  · rw [hout]
    rfl
  · exact endsAlike_of_reline (fun failure => hall.failed_token) hended
  · exact htext.trans (by rw [append_join, ← hfed.printed])

/-- **Programs that are fed one after the other run as one program, with newlines between
them.**  If all of them but the last have been run with success, then the last one and the
whole text end alike, in any run that comes to its end, and all output is the same.

When they fail, it is at one and the same word.  Behind as many empty lines as there are lines
before it in the whole text each piece runs as it did before, up to the lines, and there the
last one fails just as the whole text does. -/
theorem pieces_run_as_whole (hfed : Fed clock output sources texts session sink)
    (hclosed : ∀ source ∈ sources, ¬Lexed.EndsInComment source)
    (haccepts : Session.new.Accepts last program found after) :
    ∃ placed, Fed clock output (Lexed.inPlace 0 sources) texts placed sink ∧
      session = placed.reline (Lexed.lineWithin (sources ++ [last])) ∧
      let piece := fun fuel => session.run clock fuel sink last
      let inPlace := fun fuel =>
        placed.run clock fuel sink (Lexed.below (Lexed.lineCount sources) last)
      let whole := fun fuel =>
        Session.new.run clock fuel output ("\n".intercalate (sources ++ [last]))
      (∀ fuel, (piece fuel).1 ≠ .outOfFuel → ∃ fuel', RunsAlike (sources ++ [last]) texts
        output sink (piece fuel) (inPlace fuel) (whole fuel')) ∧
      ∀ fuel', (whole fuel').1 ≠ .outOfFuel → ∃ fuel, RunsAlike (sources ++ [last]) texts
        output sink (piece fuel) (inPlace fuel) (whole fuel') := by
  obtain ⟨placed, hplaced, hlines, steps, hlast⟩ := hfed.run_last hclosed haccepts
  refine ⟨placed, hplaced, hlines,
    fun fuel hended => ⟨steps + fuel, (hlast fuel).2 (mt (hlast fuel).1 hended)⟩,
    fun fuel hended => ⟨fuel, ?_⟩⟩
  dsimp only at hended ⊢
  have hmore := run_of_more (Nat.le_add_left fuel steps) hended
  rw [← hmore] at hended ⊢
  exact (hlast fuel).2 hended

/-- A function of an earlier piece prints something and fails, on the first line of its piece,
which is the second line of the whole text.  The last piece has the same word on its first line,
but that is the third line. -/
theorem failure_in_earlier_piece : ∃ session placed,
    let clock : Nat → Float := fun _ => 0
    let output := Sink.working ""
    let pieces := ["var a = \"b\";", "fun f() \x7b print a; -a; \x7d", "f(); -a;"]
    let text := "var a = \"b\";\nfun f() \x7b print a; -a; \x7d\nf(); -a;"
    let piece := fun fuel => session.run clock fuel output "f(); -a;"
    let inPlace := fun fuel => placed.run clock fuel output "\n\nf(); -a;"
    let whole := fun fuel => Session.new.run clock fuel output text
    Fed clock output (pieces.take 2) ["", ""] session output ∧
      Fed clock output ["var a = \"b\";", "\nfun f() \x7b print a; -a; \x7d"] ["", ""] placed
        output ∧
      session = placed.reline (Lexed.lineWithin pieces) ∧
      ((piece 19).1 = .failed ⟨⟨.minus, "-", 1⟩, .operandNotNumber⟩ ∧
        (piece 19).2.1.text = "b\n") ∧
      ((whole 29).1 = .failed ⟨⟨.minus, "-", 2⟩, .operandNotNumber⟩ ∧
        (whole 29).2.1.text = "b\n") ∧
      (∃ fuel, RunsAlike pieces ["", ""] output output (piece 19) (inPlace 19) (whole fuel)) ∧
      ∃ fuel, RunsAlike pieces ["", ""] output output (piece fuel) (inPlace fuel) (whole 29) := by
  let clock : Nat → Float := fun _ => 0
  have hfirst : (Session.new.run clock 5 (.working "") "var a = \"b\";").1 = .success ∧
      (Session.new.run clock 5 (.working "") "var a = \"b\";").2.1 = .working "" := by
    constructor <;> cbv
  have hsecond : ((Session.new.run clock 5 (.working "") "var a = \"b\";").2.2.run clock 3
        (.working "") "fun f() \x7b print a; -a; \x7d").1 = .success ∧
      ((Session.new.run clock 5 (.working "") "var a = \"b\";").2.2.run clock 3
        (.working "") "fun f() \x7b print a; -a; \x7d").2.1 = .working "" := by
    constructor <;> cbv
  have hpiece : (((Session.new.run clock 5 (.working "") "var a = \"b\";").2.2.run clock 3
        (.working "") "fun f() \x7b print a; -a; \x7d").2.2.run clock 19 (.working "")
          "f(); -a;").1 = .failed ⟨⟨.minus, "-", 1⟩, .operandNotNumber⟩ ∧
      (((Session.new.run clock 5 (.working "") "var a = \"b\";").2.2.run clock 3
        (.working "") "fun f() \x7b print a; -a; \x7d").2.2.run clock 19 (.working "")
          "f(); -a;").2.1.text = "b\n" := by
    constructor <;> cbv
  have hwhole : (Session.new.run clock 29 (.working "")
        "var a = \"b\";\nfun f() \x7b print a; -a; \x7d\nf(); -a;").1
          = .failed ⟨⟨.minus, "-", 2⟩, .operandNotNumber⟩ ∧
      (Session.new.run clock 29 (.working "")
        "var a = \"b\";\nfun f() \x7b print a; -a; \x7d\nf(); -a;").2.1.text = "b\n" := by
    constructor <;> cbv
  have haccepts : Session.new.Accepts "f(); -a;"
      [.expression (.call (.use ⟨⟨.identifier, "f", 1⟩, 1⟩) ⟨.rightParen, ")", 1⟩ []),
        .expression (.unary ⟨.minus, "-", 1⟩ (.use ⟨⟨.identifier, "a", 1⟩, 2⟩))] []
      { Session.new with lastId := 2 } := by
    unfold Accepts
    cbv
  have hclosed : ∀ source ∈ ["var a = \"b\";", "fun f() \x7b print a; -a; \x7d"],
      ¬Lexed.EndsInComment source := by
    rintro source hsource ⟨inside, hmem, -⟩
    have hnone : (["var a = \"b\";", "fun f() \x7b print a; -a; \x7d"].all fun source =>
        (segments source.toList).all fun segment => segment.text.head? != some '/') = true := by
      cbv
    have hhead := List.all_eq_true.mp (List.all_eq_true.mp hnone source hsource) _ hmem
    exact absurd hhead (by simp [Segment.text])
  have hfed := (Fed.nothing.silent hfirst.1 hfirst.2).silent hsecond.1 hsecond.2
  obtain ⟨placed, hplaced, hlines, hdirect, hconverse⟩ :=
    pieces_run_as_whole hfed hclosed haccepts
  have hsources : Lexed.inPlace 0 ([] ++ ["var a = \"b\";"] ++ ["fun f() \x7b print a; -a; \x7d"])
      = ["var a = \"b\";", "\nfun f() \x7b print a; -a; \x7d"] := by
    cbv
  have hlast : Lexed.below (Lexed.lineCount ([] ++ ["var a = \"b\";"]
      ++ ["fun f() \x7b print a; -a; \x7d"])) "f(); -a;" = "\n\nf(); -a;" := by
    cbv
  have hjoined : "\n".intercalate ([] ++ ["var a = \"b\";"] ++ ["fun f() \x7b print a; -a; \x7d"]
      ++ ["f(); -a;"]) = "var a = \"b\";\nfun f() \x7b print a; -a; \x7d\nf(); -a;" := by
    cbv
  rw [hsources] at hplaced
  rw [hlast, hjoined] at hdirect hconverse
  refine ⟨_, placed, hfed, hplaced, hlines, hpiece, hwhole, hdirect 19 ?_, hconverse 29 ?_⟩
  · exact ne_of_eq_of_ne hpiece.1 Outcome.noConfusion
  · exact ne_of_eq_of_ne hwhole.1 Outcome.noConfusion

end Lox.Session
