/-
Sources one after the other.

Whatever is cut off a source ends before a newline that is put behind it, with two
exceptions: a string whose closing quote is missing and a block comment whose end is missing
go on.  So if there is neither at the end of a source, then the segments of that source, a
newline and another source are those of the one and those of the other with a blank in
between.  Their words follow each other in the same way, only that those behind are on
later lines.
-/
import Mathlib.Data.List.Forall2
import Lox.Proofs.Source.Lexemes
import Lox.Proofs.Syntax.Relabelling
import Lox.Source.Lexed

namespace Lox

namespace Segment

/-- What comes behind the segment cannot become a part of it: it is neither a string nor a
block comment that is still open. -/
structure Closed (segment : Segment) : Prop where
  string : ∀ text, segment ≠ .openString text
  comment : ∀ inside, segment = .comment ('/' :: '*' :: inside) → closing <:+: inside

/-! ### A newline behind what is cut -/

section Newline

variable {p : Char → Bool}

theorem takeWhile_newline (h : p '\n' = false) (text behind : List Char) :
    (text ++ '\n' :: behind).takeWhile p = text.takeWhile p := by
  induction text with
  | nil => simp [h]
  | cons c rest ih => simp only [List.cons_append, List.takeWhile_cons, ih]

theorem dropWhile_newline (h : p '\n' = false) (text behind : List Char) :
    (text ++ '\n' :: behind).dropWhile p = text.dropWhile p ++ '\n' :: behind := by
  induction text with
  | nil => simp [h]
  | cons c rest ih =>
      simp only [List.cons_append, List.dropWhile_cons, ih]
      split <;> rfl

end Newline

section Cut

variable (c : Char) (rest behind : List Char)

theorem splitFraction_newline :
    splitFraction (rest ++ '\n' :: behind)
      = ((splitFraction rest).1, (splitFraction rest).2 ++ '\n' :: behind) := by
  have htake := takeWhile_newline (p := Char.isDigit) (by decide)
  have hdrop := dropWhile_newline (p := Char.isDigit) (by decide)
  rcases rest with _ | ⟨point, _ | ⟨d, rest⟩⟩
  · rfl
  · by_cases hpoint : point = '.'
    · subst hpoint
      rfl
    · simp [splitFraction, hpoint]
  · by_cases hpoint : point = '.'
    · subst hpoint
      simp only [List.cons_append, splitFraction, htake, hdrop]
      split <;> rfl
    · simp [splitFraction, hpoint]

theorem number_newline :
    number c (rest ++ '\n' :: behind)
      = ((number c rest).1, (number c rest).2 ++ '\n' :: behind) := by
  unfold number
  rw [takeWhile_newline (by decide), dropWhile_newline (by decide), splitFraction_newline]

theorem name_newline :
    name c (rest ++ '\n' :: behind) = ((name c rest).1, (name c rest).2 ++ '\n' :: behind) := by
  unfold name
  rw [takeWhile_newline (by decide), dropWhile_newline (by decide)]

theorem comparison_newline (alone withEqual : TokenKind) :
    comparison c alone withEqual (rest ++ '\n' :: behind)
      = ((comparison c alone withEqual rest).1,
          (comparison c alone withEqual rest).2 ++ '\n' :: behind) := by
  rcases rest with _ | ⟨d, rest⟩
  · rfl
  · by_cases hequal : d = '='
    · subst hequal
      rfl
    · simp [comparison, hequal]

variable {c rest}

theorem string_newline (h : (string rest).1.Closed) :
    string (rest ++ '\n' :: behind)
      = ((string rest).1, (string rest).2 ++ '\n' :: behind) := by
  by_cases hquote : '"' ∈ rest
  · obtain ⟨inside, more, rfl, hinside⟩ := List.eq_append_cons_of_mem hquote
    rw [List.append_assoc, List.cons_append, string_reaches hinside, string_reaches hinside]
  · rw [openString_reaches hquote] at h
    exact absurd rfl (h.string _)

theorem slash_newline (h : (slash rest).1.Closed) :
    slash (rest ++ '\n' :: behind) = ((slash rest).1, (slash rest).2 ++ '\n' :: behind) := by
  rcases rest with _ | ⟨d, rest⟩
  · rfl
  by_cases hline : d = '/'
  · subst hline
    simp only [List.cons_append, slash]
    rw [takeWhile_newline (by decide), dropWhile_newline (by decide)]
  by_cases hblock : d = '*'
  · subst hblock
    have hsplit := splitBlockComment_append rest
    rcases splitBlockComment_cases rest with ⟨inside, hinside, hopen⟩ | ⟨-, hopen⟩
    · simp only [List.cons_append, slash]
      rw [hinside] at hsplit ⊢
      rw [← hsplit, List.append_assoc, splitBlockComment_closed hopen]
      dsimp only
      rw [hsplit]
    · exact absurd (h.comment _ rfl) hopen
  · simp [slash, hline, hblock]

/-- What is cut off is the same with a newline behind the source. -/
theorem first_newline (h : (first c rest).1.Closed) :
    first c (rest ++ '\n' :: behind)
      = ((first c rest).1, (first c rest).2 ++ '\n' :: behind) := by
  unfold first at h ⊢
  split
  · rfl
  split
  · rename_i hblank hslash
    rw [if_neg hblank, if_pos hslash] at h
    exact slash_newline behind h
  split
  · rename_i hblank hslash hquote
    rw [if_neg hblank, if_neg hslash, if_pos hquote] at h
    exact string_newline behind h
  split
  · exact number_newline c rest behind
  split
  · exact name_newline c rest behind
  split
  · rfl
  · exact comparison_newline c rest behind _ _
  · rfl

end Cut

/-- **The segments on both sides of a newline are those of the two sources.** -/
theorem segments_newline {source : List Char} (h : ∀ segment ∈ segments source, segment.Closed)
    (behind : List Char) :
    segments (source ++ '\n' :: behind)
      = segments source ++ .blank '\n' :: segments behind := by
  fun_induction segments source with
  | case1 =>
      rw [List.nil_append, segments]
      rfl
  | case2 c rest ih =>
      rw [List.forall_mem_cons] at h
      rw [List.cons_append, segments, first_newline behind h.1, ih h.2]
      rfl

end Segment

namespace Lexed

/-! ### Words behind others -/

theorem ofSegments_append (line : Nat) (row more : List Segment) :
    ofSegments line (row ++ more)
      = ⟨(ofSegments line row).tokens ++ (ofSegments (ofSegments line row).endLine more).tokens,
          (ofSegments (ofSegments line row).endLine more).endLine,
          (ofSegments line row).faults
            ++ (ofSegments (ofSegments line row).endLine more).faults⟩ := by
  induction row generalizing line with
  | nil => rfl
  | cons segment rest ih =>
      rw [List.cons_append, ofSegments, ofSegments, ih]
      cases segment <;> rfl

/-- Segments that start on a later line have the same words on later lines. -/
theorem ofSegments_later (line later : Nat) (row : List Segment) :
    ofSegments (line + later) row
      = ⟨(ofSegments line row).tokens.map (Token.reline (· + later)),
          (ofSegments line row).endLine + later,
          (ofSegments line row).faults.map (Fault.reline (· + later))⟩ := by
  induction row generalizing line with
  | nil => rfl
  | cons segment rest ih =>
      rw [ofSegments, ofSegments, Nat.add_right_comm line later, ih]
      cases segment <;> rfl

/-- Words are on the lines that the segments are on. -/
theorem ofSegments_lines (line : Nat) (row : List Segment) :
    ∀ token ∈ (ofSegments line row).tokens,
      line ≤ token.line ∧ token.line ≤ (ofSegments line row).endLine := by
  induction row generalizing line with
  | nil => exact fun token h => absurd h List.not_mem_nil
  | cons segment rest ih =>
      intro token htoken
      have hle : line + segment.newlines ≤ (ofSegments (line + segment.newlines) rest).endLine := by
        rw [ofSegments_endLine]
        exact Nat.le_add_right _ _
      have hrest : token ∈ (ofSegments (line + segment.newlines) rest).tokens →
          line ≤ token.line ∧
            token.line ≤ (ofSegments (line + segment.newlines) rest).endLine := fun h =>
        ⟨Nat.le_trans (Nat.le_add_right _ _) (ih _ token h).1, (ih _ token h).2⟩
      rw [ofSegments] at htoken ⊢
      cases segment with
      | word kind text =>
          rcases List.mem_cons.mp htoken with rfl | htoken
          · exact ⟨Nat.le_add_right _ _, hle⟩
          · exact hrest htoken
      | _ => exact hrest htoken

/-- Without a fault there is no string that is never closed. -/
theorem not_openString_of_faults {line : Nat} {row : List Segment}
    (h : (ofSegments line row).faults = []) (text : List Char) : .openString text ∉ row := by
  induction row generalizing line with
  | nil => exact List.not_mem_nil
  | cons segment rest ih =>
      rw [ofSegments] at h
      rw [List.mem_cons, not_or]
      cases segment with
      | stray c => exact absurd h (List.cons_ne_nil _ _)
      | openString text => exact absurd h (List.cons_ne_nil _ _)
      | _ => exact ⟨Segment.noConfusion, ih h⟩

/-! ### Sources that are joined by newlines -/

/-- The source ends inside a block comment that is never closed. -/
def EndsInComment (source : String) : Prop :=
  ∃ inside, .comment ('/' :: '*' :: inside) ∈ segments source.toList ∧
    ¬Segment.closing <:+: inside

/-- The words on both sides of a newline are those of the two sources, on later lines behind
it. -/
theorem ofSource_newline {source : String} (h : (ofSource source).faults = [])
    (hopen : ¬EndsInComment source) (behind : String) :
    ofSource (source ++ "\n" ++ behind)
      = ⟨(ofSource source).tokens
            ++ (ofSource behind).tokens.map (Token.reline (· + (ofSource source).endLine)),
          (ofSource behind).endLine + (ofSource source).endLine,
          (ofSource behind).faults.map (Fault.reline (· + (ofSource source).endLine))⟩ := by
  have hclosed : ∀ segment ∈ segments source.toList, segment.Closed := by
    refine fun segment hmem => ⟨fun text hstring => ?_, fun inside hcomment => ?_⟩
    · exact not_openString_of_faults h text (hstring ▸ hmem)
    · by_contra hwithin
      exact hopen ⟨inside, hcomment ▸ hmem, hwithin⟩
  have htext : (source ++ "\n" ++ behind).toList = source.toList ++ '\n' :: behind.toList := by
    simp
  have hsource : ofSegments 1 (segments source.toList) = ofSource source := rfl
  have hnewline : ∀ line row, ofSegments line (.blank '\n' :: row) = ofSegments (1 + line) row := by
    intro line row
    rw [Nat.add_comm]
    rfl
  rw [ofSource, htext, Segment.segments_newline hclosed, ofSegments_append, hsource, hnewline,
    ofSegments_later, h]
  rfl

/-! ### The lines of joined sources -/

/-- A source behind so many empty lines. -/
def below (lines : Nat) (source : String) : String :=
  String.ofList (List.replicate lines '\n') ++ source

/-- Sources on the lines that they have when they are joined by newlines, behind so many other
lines. -/
def inPlace : Nat → List String → List String
  | _, [] => []
  | lines, source :: rest => below lines source :: inPlace (lines + (ofSource source).endLine) rest

/-- How many lines there are before a source that is joined behind others. -/
def lineCount : List String → Nat
  | [] => 0
  | source :: rest => (ofSource source).endLine + lineCount rest

/-- The line within its source, for a line of sources that are joined by newlines. -/
def lineWithin : List String → Nat → Nat
  | [], line => line
  | source :: rest, line =>
      if line ≤ (ofSource source).endLine then line
      else lineWithin rest (line - (ofSource source).endLine)

theorem inPlace_append (lines : Nat) (sources : List String) (last : String) :
    inPlace lines (sources ++ [last])
      = inPlace lines sources ++ [below (lines + lineCount sources) last] := by
  induction sources generalizing lines with
  | nil => rfl
  | cons source rest ih =>
      rw [List.cons_append, inPlace, ih, inPlace, lineCount, Nat.add_assoc, List.cons_append]

theorem ofSegments_newlines (line lines : Nat) (source : List Char) :
    ofSegments line (segments (List.replicate lines '\n' ++ source))
      = ofSegments (line + lines) (segments source) := by
  induction lines generalizing line with
  | zero => rfl
  | succ lines ih =>
      have hfirst : segments ('\n' :: (List.replicate lines '\n' ++ source))
          = .blank '\n' :: segments (List.replicate lines '\n' ++ source) := by
        rw [segments]
        rfl
      rw [List.replicate_succ, List.cons_append, hfirst, ofSegments]
      show ofSegments (line + 1) _ = _
      rw [ih, Nat.add_assoc, Nat.add_comm 1]

/-- Behind empty lines the words of a source are the same, on later lines. -/
theorem ofSource_below (lines : Nat) (source : String) :
    ofSource (below lines source)
      = ⟨(ofSource source).tokens.map (Token.reline (· + lines)),
          (ofSource source).endLine + lines,
          (ofSource source).faults.map (Fault.reline (· + lines))⟩ := by
  rw [ofSource, below, String.toList_append, String.toList_ofList, ofSegments_newlines,
    ofSegments_later]
  rfl

/-- A source has the words of another one on other lines, and if there is nothing wrong with the
other one, then neither is with it. -/
structure Relined (l : Nat → Nat) (source' source : String) : Prop where
  tokens : (ofSource source').tokens.map (Token.reline l) = (ofSource source).tokens
  clean : (ofSource source).faults = [] → (ofSource source').faults = []

/-- Behind other lines a source has its own words, on lines that are counted on from these. -/
theorem relined_below {l : Nat → Nat} {lines : Nat} {source : String} {rest : List String}
    (hl : ∀ line, lines < line → l line = lineWithin (source :: rest) (line - lines)) :
    Relined l (below lines source) source := by
  refine ⟨?_, fun hclean => ?_⟩
  · rw [ofSource_below, Token.map_reline_map_reline]
    refine (List.map_congr_left fun token htoken => ?_).trans (List.map_id _)
    obtain ⟨hfirst, hlast⟩ := ofSegments_lines 1 (segments source.toList) token htoken
    have hline : l (token.line + lines) = token.line := by
      rw [hl _ (by omega), Nat.add_sub_cancel, lineWithin]
      exact if_pos hlast
    rw [Token.reline, Function.comp_apply, hline]
    rfl
  · rw [ofSource_below, hclean]
    rfl

/-- In its place each source has its own words. -/
theorem relined_inPlace {l : Nat → Nat} {lines : Nat} {sources : List String} {last : String}
    (hl : ∀ line, lines < line → l line = lineWithin (sources ++ [last]) (line - lines)) :
    List.Forall₂ (Relined l) (inPlace lines sources) sources ∧
      Relined l (below (lines + lineCount sources) last) last := by
  induction sources generalizing lines with
  | nil => exact ⟨.nil, relined_below hl⟩
  | cons source rest ih =>
      have hrest : ∀ line, lines + (ofSource source).endLine < line →
          l line = lineWithin (rest ++ [last]) (line - (lines + (ofSource source).endLine)) := by
        intro line hline
        rw [hl line (by omega), List.cons_append, lineWithin, if_neg (by omega), Nat.sub_sub]
      obtain ⟨hsources, hlast⟩ := ih hrest
      rw [Nat.add_assoc] at hlast
      exact ⟨.cons (relined_below hl) hsources, hlast⟩

/-- **The words of joined sources are the words of the sources, each in its place.** -/
theorem ofSource_joined (lines : Nat) (sources : List String) (last : String)
    (hfaults : ∀ source ∈ sources, (ofSource source).faults = [])
    (hclosed : ∀ source ∈ sources, ¬EndsInComment source)
    (hlast : (ofSource last).faults = []) :
    (ofSource ("\n".intercalate (sources ++ [last]))).faults = [] ∧
      (ofSource ("\n".intercalate (sources ++ [last]))).tokens.map (Token.reline (· + lines))
        = (inPlace lines (sources ++ [last])).flatMap fun source => (ofSource source).tokens := by
  induction sources generalizing lines with
  | nil =>
      rw [List.nil_append, String.intercalate_singleton, inPlace, inPlace, List.flatMap_singleton,
        ofSource_below]
      exact ⟨hlast, rfl⟩
  | cons source rest ih =>
      rw [List.forall_mem_cons] at hfaults hclosed
      obtain ⟨hrest, htokens⟩ := ih (lines + (ofSource source).endLine) hfaults.2 hclosed.2
      rw [List.cons_append, String.intercalate_cons_of_ne_nil (List.append_ne_nil_of_right_ne_nil _
        (List.cons_ne_nil _ _)), ofSource_newline hfaults.1 hclosed.1]
      refine ⟨by rw [hrest]; rfl, ?_⟩
      rw [inPlace, List.flatMap_cons, ← htokens, ofSource_below, List.map_append,
        Token.map_reline_map_reline]
      congr 2
      funext token
      rw [Token.reline, Token.reline, Function.comp_apply, Nat.add_right_comm, ← Nat.add_assoc]

end Lexed

end Lox
