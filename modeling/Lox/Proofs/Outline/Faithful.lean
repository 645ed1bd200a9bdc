/-
Outlines are faithful.

The outline of a program leaves out where its tokens stand, how its occurrences are numbered
and some of its tokens, and yet it says which program it is.  Its text says what is nested in
it, what is nested says which tree it is, and of the tokens that are left out each can only be
the one that its place asks for.  The two exceptions are literals: a string is shown without its
quotes, and infinity as a word, so that either may look like something else.
-/
import Mathlib.Data.Set.Function
import Lox.Proofs.Grammar.Exactness
import Lox.Proofs.Outline.Decoding

namespace Lox

open Outline
open Node (parts ofExpr ofStmt)

/-- The numbers that finite numbers are shown as. -/
theorem exists_numbers : ∃ number : String → Float,
    ∀ x b, Decimal.shape x = .finite b → number (numberLayout.render x) = x := by
  have hinj : Set.InjOn numberLayout.render {x | ∃ b, Decimal.shape x = .finite b} := by
    rintro x ⟨b, hx⟩ y ⟨b', hy⟩ h
    exact eq_of_render hx hy h
  exact ⟨_, fun x b hx => hinj.leftInvOn_invFunOn ⟨b, hx⟩⟩

variable {source source' : String} {endLine endLine' first first' last last' : Nat}
  {program program' : List Stmt}

/-- What was read of a source without a fault comes back from its outline, if its literals are
shown as what they are. -/
theorem shows_program (hread : Grammar.parse (Lexed.ofSource source).tokens endLine first
      = ⟨program, [], last⟩)
    (hshown : ∀ p : Place, p.IsIn program →
      ∀ value, p.node = .expr (.literal value) → value.IsShown)
    {number : String → Float}
    (hnumber : ∀ x b, Decimal.shape x = .finite b → number (numberLayout.render x) = x) :
    List.Forall₂ (Shows (toStmt number)) (Stmt.nestedAll program) (program.map Stmt.bare) := by
  have hderives : Grammar.Derives.Program first (Lexed.ofSource source).tokens last program :=
    ((Grammar.parse_iff_derives _ endLine first).2 program last).mpr hread
  have hworded := hderives.worded (Lexed.allows_lexemes source)
  have ht : Tells number fun n => ∃ site, Place.IsIn program ⟨site, n⟩ := by
    refine ⟨hnumber, Place.hereditary program, ?_⟩
    rintro n ⟨site, hn⟩
    exact ⟨hn.of_hereditary (Node.worded_hereditary .lexemes) hworded, hderives.written hn,
      hshown _ hn⟩
  rw [← Stmt.relabelAll_eq_map]
  exact Stmt.showsAll ht program fun s hs =>
    Place.hereditary program _ ⟨[], .self⟩ _ (List.mem_map_of_mem hs)

/-- **The outline says which program it is.**  Two programs that were read without a fault and
have no string and no infinite number in them are the same up to labels, if their outlines are
the same: they differ at most in the numbers of their occurrences and in the lines of their
tokens. -/
theorem outline_faithful
    (hread : Grammar.parse (Lexed.ofSource source).tokens endLine first = ⟨program, [], last⟩)
    (hread' : Grammar.parse (Lexed.ofSource source').tokens endLine' first'
      = ⟨program', [], last'⟩)
    (hshown : ∀ p : Place, p.IsIn program →
      ∀ value, p.node = .expr (.literal value) → value.IsShown)
    (hshown' : ∀ p : Place, p.IsIn program' →
      ∀ value, p.node = .expr (.literal value) → value.IsShown)
    (houtline : outlineProgram program = outlineProgram program') :
    program.map Stmt.bare = program'.map Stmt.bare := by
  obtain ⟨number, hnumber⟩ := exists_numbers
  have hprogram := shows_program hread hshown hnumber
  have hprogram' := shows_program hread' hshown' hnumber
  have hnested : Stmt.nestedAll program = Stmt.nestedAll program' := by
    refine eq_of_lines (Shows.plains hprogram) (Shows.plains hprogram') ?_
    rw [← toList_outlineProgram, ← toList_outlineProgram, houtline]
  rw [← toStmts_of_shows hprogram, hnested, toStmts_of_shows hprogram']

/-- One assignment, written in two ways. -/
theorem assignments_faithful : ∃ program program' : List Stmt,
    Grammar.parse (Lexed.ofSource "x=1.5;").tokens 1 0 = ⟨program, [], 2⟩ ∧
    Grammar.parse (Lexed.ofSource "\nx = 01.50;").tokens 2 7 = ⟨program', [], 9⟩ ∧
    program ≠ program' ∧ outlineProgram program = outlineProgram program' ∧
    program.map Stmt.bare = program'.map Stmt.bare := by
  let row (text : String) (line : Nat) : List Token :=
    [⟨.identifier, "x", line⟩, ⟨.equal, "=", line⟩, ⟨.number, text, line⟩, ⟨.semicolon, ";", line⟩]
  let assigned (value : Float) (line id : Nat) : List Stmt :=
    [.expression (.assign ⟨⟨.identifier, "x", line⟩, id⟩ (.literal (.number value)))]
  have hnumber (text : String) (line first : Nat) :
      Grammar.Derives.Expression .assignment first [⟨.number, text, line⟩] first
        (.literal (.number (Decimal.read text.toList))) :=
    .inner .assignment <| .inner .conditional <| .inner .or <| .inner .and <| .inner .equality <|
      .inner .comparison <| .inner .term <| .inner .factor <| .inner .unary <| .inner .call <|
      .constant (.written rfl)
  have hderives (text : String) (line first : Nat) :
      Grammar.Derives.Program first (row text line) (first + 2)
        (assigned (Decimal.read text.toList) line (first + 2)) :=
    .more (.statement (.expression rfl (.inner .comma
      (.assignName rfl rfl (hnumber text line (first + 1)))))) .none
  have hshown (value : Float) (line id : Nat) (h : Decimal.shape value ≠ .infinite) (p : Place)
      (hp : p.IsIn (assigned value line id)) :
      ∀ literal, p.node = .expr (.literal literal) → literal.IsShown := by
    let shown : Node → Prop := fun n => ∀ literal, n = .expr (.literal literal) → literal.IsShown
    have hliteral : (Node.expr (.literal (.number value))).Everywhere shown :=
      .mk (by rintro _ ⟨⟩; exact h) (by simp [parts, ofExpr])
    have hassign (target : Occurrence) :
        (Node.expr (.assign target (.literal (.number value)))).Everywhere shown :=
      .mk (by rintro _ ⟨⟩) (by simpa [parts, ofExpr] using hliteral)
    have hstmt : ∀ s ∈ assigned value line id, (Node.stmt s).Everywhere shown := by
      simp only [assigned, List.forall_mem_singleton]
      exact .mk (by rintro _ ⟨⟩) (by simpa [parts, ofStmt] using hassign _)
    have hprogram : (Node.program (assigned value line id)).Everywhere shown :=
      .mk (by rintro _ ⟨⟩) (List.forall_mem_map.mpr hstmt)
    exact (hp.of_hereditary (Node.everywhere_hereditary shown) hprogram).here
  have hrow : (Lexed.ofSource "x=1.5;").tokens = row "1.5" 1 := by decide +kernel
  have hrow' : (Lexed.ofSource "\nx = 01.50;").tokens = row "01.50" 2 := by decide +kernel
  have hread := (hderives "1.5" 1 0).parse_eq 1
  have hread' := (hderives "01.50" 2 7).parse_eq 2
  rw [← hrow] at hread
  rw [← hrow'] at hread'
  have hsame : Decimal.read "1.5".toList = Decimal.read "01.50".toList := by decide +kernel
  have hfinite : Decimal.shape (Decimal.read "01.50".toList) ≠ .infinite := by decide +kernel
  rw [hsame] at hread
  refine ⟨_, _, hread, hread', fun heq => ?_, rfl, outline_faithful hread hread'
    (hshown _ 1 2 hfinite) (hshown _ 2 9 hfinite) rfl⟩
  cases heq

/-- A string is shown like the name that is spelled like it. -/
example : outlineProgram (Grammar.parse (Lexed.ofSource "\"x\";").tokens 1 0).program
    = outlineProgram (Grammar.parse (Lexed.ofSource "x;").tokens 1 0).program := by
  cbv

end Lox
