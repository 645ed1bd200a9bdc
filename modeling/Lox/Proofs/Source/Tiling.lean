/-
The row of segments of a source.

A source is tiled by its segments in one way only.  What is read of it are the words among
them, in order, and the faults are the characters that start nothing and the string that
is never closed; each comes with the line on which its segment ends, which is one more
than the newlines of the source up to there.
-/
import Lox.Proofs.Source.Lexemes
import Lox.Proofs.Source.Spelling

namespace Lox

namespace Segment

/-- The segments of a source are its only tiling. -/
theorem tiling_iff {row : List Segment} {source : List Char} :
    Tiling row source ↔ row = segments source := by
  constructor
  · intro h
    induction h with
    | nil => rw [segments]
    | @cons segment row rest h _ ih =>
        obtain ⟨c, more, hsource⟩ := List.exists_cons_of_ne_nil
          (List.append_ne_nil_of_left_ne_nil h.fits.text_ne_nil rest)
        rw [hsource, segments, h.eq_first hsource, ih]
  · rintro rfl
    fun_induction segments source with
    | case1 => exact .nil
    | case2 c rest ih =>
        have htiling := Tiling.cons (first_longest c rest) ih
        rwa [first_text] at htiling

end Segment

namespace Lexed

/-! ### Lines -/

/-- The line on which the segment at a position of a row ends. -/
def lineBehind (row : List Segment) (position : Nat) : Nat :=
  1 + ((row.take (position + 1)).flatMap Segment.text).count '\n'

/-- The token that a segment is, if it is one. -/
def token? (row : List Segment) : Segment × Nat → Option Token
  | (.word kind text, position) => some ⟨kind, String.ofList text, lineBehind row position⟩
  | _ => none

/-- What is wrong with a segment, if it is not in order. -/
def fault? (row : List Segment) : Segment × Nat → Option Fault
  | (.stray _, position) => some (.ofLine (lineBehind row position) .unexpectedCharacter)
  | (.openString _, position) => some (.ofLine (lineBehind row position) .unterminatedString)
  | _ => none

/-- The words of the segments behind others are placed as they are in the whole row. -/
theorem ofSegments_placed (before row : List Segment) :
    ofSegments (1 + (before.flatMap Segment.text).count '\n') row
      = ⟨(row.zipIdx before.length).filterMap (token? (before ++ row)),
          1 + ((before ++ row).flatMap Segment.text).count '\n',
          (row.zipIdx before.length).filterMap (fault? (before ++ row))⟩ := by
  induction row generalizing before with
  | nil => rw [List.append_nil]; rfl
  | cons segment rest ih =>
      have hline : 1 + (before.flatMap Segment.text).count '\n' + segment.newlines
          = 1 + ((before ++ [segment]).flatMap Segment.text).count '\n' := by
        simp [Segment.newlines, Nat.add_assoc]
      have hbehind : lineBehind (before ++ segment :: rest) before.length
          = 1 + ((before ++ [segment]).flatMap Segment.text).count '\n' := by
        rw [lineBehind, ← List.singleton_append, ← List.append_assoc]
        congr 4
        exact List.take_left' (by simp)
      have hrest := ih (before ++ [segment])
      rw [List.append_assoc, List.singleton_append, List.length_append,
        List.length_singleton] at hrest
      rw [ofSegments, hline, hrest, List.zipIdx_cons, List.filterMap_cons, List.filterMap_cons]
      cases segment <;> simp only [consSegment, token?, fault?, hbehind]

/-! ### Strings -/

theorem quoted_of_string {kind : TokenKind} {text : List Char} (h : Lexeme kind text)
    (hkind : kind = .string) : ∃ inside, text = '"' :: inside ++ ['"'] := by
  have hpunctuation : ∀ entry ∈ Segment.punctuation, entry.2 ≠ .string := by decide
  have hcomparison : ∀ entry ∈ Segment.comparisons, entry.2.1 ≠ .string ∧ entry.2.2 ≠ .string := by
    decide
  cases h with
  | punctuation h => exact absurd hkind (hpunctuation _ h)
  | alone h => exact absurd hkind (hcomparison _ h).1
  | withEqual h => exact absurd hkind (hcomparison _ h).2
  | @name c more =>
      have hword := TokenKind.ofWord_isWord (String.ofList (c :: more))
      rw [hkind] at hword
      exact absurd hword (by decide)
  | string => exact ⟨_, rfl⟩
  | _ => exact absurd hkind (by decide)

/-- What a string token stands for is what its text has between the quotes. -/
theorem ofSource_strings (source : String) :
    ∀ token ∈ (ofSource source).tokens, token.kind = .string →
      ∃ inside, token.lexeme.toList = '"' :: inside ++ ['"'] ∧
        token.literal? = some (.string (String.ofList inside)) := by
  intro token htoken hkind
  obtain ⟨inside, hinside⟩ := quoted_of_string (ofSource_lexeme source token htoken) hkind
  exact ⟨inside, hinside, by simp [Token.literal?, hkind, hinside, Token.unquote]⟩

/-- **A source is a row of segments in one way, and its words are those of the row.**  Each
segment is the longest at its place.  The tokens are the words in order, the faults are
what fits nowhere, and the line of each is that on which its segment ends. -/
theorem ofSource_tiled (source : String) : ∃ row : List Segment,
    Segment.Tiling row source.toList ∧
    (∀ other, Segment.Tiling other source.toList → other = row) ∧
    (ofSource source).tokens = row.zipIdx.filterMap (token? row) ∧
    (ofSource source).faults = row.zipIdx.filterMap (fault? row) ∧
    (ofSource source).endLine = 1 + source.toList.count '\n' ∧
    ∀ token ∈ (ofSource source).tokens, token.kind = .string →
      ∃ inside, token.lexeme.toList = '"' :: inside ++ ['"'] ∧
        token.literal? = some (.string (String.ofList inside)) := by
  have hplaced : ofSource source = _ := ofSegments_placed [] (segments source.toList)
  refine ⟨segments source.toList, Segment.tiling_iff.mpr rfl,
    fun other h => Segment.tiling_iff.mp h, ?_, ?_, ofSource_endLine source,
    ofSource_strings source⟩
  · rw [hplaced]
    rfl
  · rw [hplaced]
    rfl

end Lexed

end Lox
