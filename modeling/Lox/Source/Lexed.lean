/-
A source as words: its tokens in order, and what in it is no word.

The segments of a source already say what each piece is, so all that is left is to
count lines.  A token or a fault gets the line on which its segment ends: one, plus
the newlines up to and including that segment.
-/
import Lox.Fault
import Lox.Source.Segment

namespace Lox

/-- The words of a source, the line on which it ends, and its lexical faults. -/
structure Lexed where
  tokens : List Token
  endLine : Nat
  faults : List Fault
  deriving DecidableEq, Repr, Inhabited

namespace Lexed

/-- Puts the segment that ends on `line` in front of what comes after it. -/
def consSegment (line : Nat) (segment : Segment) (later : Lexed) : Lexed :=
  match segment with
  | .word kind text =>
      { later with tokens := ⟨kind, String.ofList text, line⟩ :: later.tokens }
  | .stray _ =>
      { later with faults := Fault.ofLine line .unexpectedCharacter :: later.faults }
  | .openString _ =>
      { later with faults := Fault.ofLine line .unterminatedString :: later.faults }
  | .blank _ | .comment _ => later

/-- The words among segments that start on the given line. -/
def ofSegments (line : Nat) : List Segment → Lexed
  | [] => ⟨[], line, []⟩
  | segment :: rest =>
      consSegment (line + segment.newlines) segment (ofSegments (line + segment.newlines) rest)

/-- The words of a source.  Lines count from one. -/
def ofSource (source : String) : Lexed :=
  ofSegments 1 (segments source.toList)

/-! ### Small facts -/

theorem ofSegments_endLine (line : Nat) (row : List Segment) :
    (ofSegments line row).endLine = line + (row.flatMap Segment.text).count '\n' := by
  induction row generalizing line with
  | nil => rfl
  | cons segment rest ih =>
      have h : (ofSegments line (segment :: rest)).endLine
          = (ofSegments (line + segment.newlines) rest).endLine := by
        rw [ofSegments]
        cases segment <;> rfl
      rw [h, ih, List.flatMap_cons, List.count_append, Segment.newlines]
      omega

/-- The last line is one more than the newlines of the source. -/
theorem ofSource_endLine (source : String) :
    (ofSource source).endLine = 1 + source.toList.count '\n' := by
  rw [ofSource, ofSegments_endLine, segments_flatMap_text]

end Lexed

end Lox
