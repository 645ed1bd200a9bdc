/-
Sessions on other lines.

A token has its line and a failure tells it, but nothing else depends on lines: the grammar and
the analysis of scopes look past them, and the machine carries them along.  So if the words of
two sources differ in their lines only, and so do the functions that two sessions remember, then
what is run in the one goes as it goes in the other (`run_reline`).  The lines of the one are
given as a function of those of the other.
-/
import Lox.Proofs.Session.Mirroring
import Lox.Proofs.Session.Reachable
import Lox.Proofs.Source.Joining

namespace Lox.Session

open Scope Machine

variable {session after : Session} {source source' : String} {program : List Stmt}
  {found : List (Nat × Nat)} {l : Nat → Nat}

/-- The same session, which remembers its functions on other lines. -/
def reline (l : Nat → Nat) (session : Session) : Session :=
  { session with memory := session.memory.relabel id l }

theorem reline_new : reline l .new = .new := by
  rw [reline, Session.new, Memory.relabel_initial]

/-! ### Reading on other lines -/

/-- There is nothing wrong with the words of an accepted source. -/
theorem Accepts.clean (h : session.Accepts source program found after) :
    (Lexed.ofSource source).faults = [] := by
  obtain ⟨hresult, -⟩ := Prod.mk.inj h.read.1
  split at hresult
  · rename_i hnil
    exact (List.append_eq_nil_iff.mp hnil).1
  · exact absurd hresult (by simp)

/-- A source is accepted if its words are in order, are derived by the rules, and have scopes
without a fault. -/
theorem accepts_of_derives {last : Nat} (hclean : (Lexed.ofSource source).faults = [])
    (hderives : Grammar.Derives.Program session.lastId (Lexed.ofSource source).tokens last program)
    (hfound : Scope.analyse program = ⟨found, []⟩) :
    session.Accepts source program found { session with lastId := last } := by
  unfold Accepts Session.analyse Session.parse
  simp only [hclean, hderives.parse_eq, List.nil_append, hfound]

/-- Tokens are a program on the lines where they are if they are one on other lines. -/
theorem derives_of_reline {tokens : List Token} {first lastId : Nat}
    (h : Grammar.Derives.Program first (tokens.map (Token.reline l)) lastId program) :
    ∃ placed, Grammar.Derives.Program first tokens lastId placed ∧
      placed.map (Stmt.relabel id l) = program := by
  have hread := Grammar.parse_shift tokens 0 first 0 l
  have hprogram : Grammar.parse (tokens.map (Token.reline l)) (l 0) (first + 0)
      = ⟨program, [], lastId⟩ := h.parse_eq (l 0)
  rw [hprogram] at hread
  obtain ⟨hplaced, hfaults, hlast⟩ := Grammar.Parsed.mk.inj hread
  have hderives := Grammar.parse_sound (List.map_eq_nil_iff.mp hfaults.symm)
  rw [← Nat.add_zero (Grammar.parse tokens 0 first).lastId, ← hlast] at hderives
  exact ⟨_, hderives, hplaced.symm⟩

/-- Nor are the lines of any concern to the scopes. -/
theorem analyse_of_reline {placed : List Stmt} (hplaced : placed.map (Stmt.relabel id l) = program)
    (h : Scope.analyse program = ⟨found, []⟩) : Scope.analyse placed = ⟨found, []⟩ := by
  have hfindings := analyse_relabel (f := id) (l := l) placed
  rw [hplaced, h] at hfindings
  obtain ⟨hlocals, hfaults⟩ := Findings.mk.inj hfindings
  rw [Prod.map_id, List.map_id] at hlocals
  show Findings.mk (Scope.analyse placed).locals (Scope.analyse placed).faults = _
  rw [← hlocals, List.map_eq_nil_iff.mp hfaults.symm]

theorem Accepts.of_relined (h : (session.reline l).Accepts source program found after)
    (hrelined : Lexed.Relined l source' source) : ∃ placed,
      session.Accepts source' placed found { session with lastId := after.lastId } ∧
        placed.map (Stmt.relabel id l) = program := by
  obtain ⟨hparse, hfaults, hfound⟩ := h.read
  have hderives := (parse_ok hparse).2
  rw [← hrelined.tokens] at hderives
  obtain ⟨placed, hplaced, hrelabel⟩ := derives_of_reline hderives
  have hanalyse : Scope.analyse program = ⟨found, []⟩ := by
    rw [hfound, ← hfaults]
  exact ⟨placed, accepts_of_derives (hrelined.clean h.clean) hplaced
    (analyse_of_reline hrelabel hanalyse), hrelabel⟩

/-! ### Running on other lines -/

/-- **A run on other lines is the same run, and its failure is on the other line.** -/
theorem run_relined (h : (session.reline l).Accepts source program found after)
    (hrelined : Lexed.Relined l source' source) (clock : Nat → Float) (fuel : Nat) (sink : Sink) :
    (session.reline l).run clock fuel sink source =
      let there := session.run clock fuel sink source'
      (there.1.reline l, there.2.1, there.2.2.reline l) := by
  obtain ⟨placed, hplaced, hrelabel⟩ := h.of_relined hrelined
  have hlocals : after.locals = session.locals := h.locals_eq
  have hstart : after.starts program sink
      = (Session.starts { session with lastId := after.lastId } placed sink).relabel id l := by
    rw [h.after_eq, ← hrelabel]
    rfl
  have hrun : Machine.run ⟨after.locals.extend found, clock⟩ fuel (after.starts program sink)
      = (Machine.run ⟨session.locals.extend found, clock⟩ fuel
          (Session.starts { session with lastId := after.lastId } placed sink)).relabel id l := by
    rw [hlocals, hstart]
    exact run_relabel (fun _ => rfl) fuel _
  rw [h.run_eq, hplaced.run_eq, hrun, hlocals]
  exact Prod.ext (outcomeOf_relabel l _) rfl

end Lox.Session
