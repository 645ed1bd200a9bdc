/-
Cutting a source into segments.

Every source is a row of segments: words, blanks, comments, characters that belong to
nothing, and perhaps a string whose closing quote never comes.  `Segment.first` cuts
off the one that begins at a given character, always the longest that fits there, and
`segments` repeats that to the end.

Nothing is lost: the texts of the segments, put together, are the source
(`segments_flatMap_text`).  A segment is never empty, which is also why the cutting
ends.
-/
import Lox.Token

namespace Lox

/-- A piece of the source, together with the text it covers. -/
inductive Segment where
  | word (kind : TokenKind) (text : List Char)
  | blank (c : Char)
  | comment (text : List Char)
  | stray (c : Char)
  | openString (text : List Char)
  deriving DecidableEq, Repr, Inhabited

namespace Segment

/-- The characters a segment covers. -/
def text : Segment → List Char
  | word _ text => text
  | blank c => [c]
  | comment text => text
  | stray c => [c]
  | openString text => text

/-- How many lines end inside a segment. -/
def newlines (s : Segment) : Nat :=
  s.text.count '\n'

/-! ### The classes of characters

All of them are classes of ASCII characters: any other character is stray unless a
string or a comment holds it.
-/

/-- Spaces, tabs, carriage returns and newlines separate words. -/
def isBlank (c : Char) : Bool :=
  c = ' ' || c = '\r' || c = '\t' || c = '\n'

/-- A word of letters starts with a letter or an underscore. -/
def isWordStart (c : Char) : Bool :=
  c.isAlpha || c = '_'

/-- A word of letters goes on with letters, digits and underscores. -/
def isWordPart (c : Char) : Bool :=
  c.isAlphanum || c = '_'

/-- The characters that are a word by themselves, whatever follows. -/
def punctuation : List (Char × TokenKind) :=
  [('(', .leftParen), (')', .rightParen), ('\x7b', .leftBrace), ('\x7d', .rightBrace),
   (',', .comma), ('.', .dot), ('-', .minus), ('+', .plus), (';', .semicolon),
   ('*', .star), ('?', .question), (':', .colon)]

/-- The characters that are a word alone and another one when `=` follows. -/
def comparisons : List (Char × TokenKind × TokenKind) :=
  [('!', .bang, .bangEqual), ('=', .equal, .equalEqual),
   ('<', .less, .lessEqual), ('>', .greater, .greaterEqual)]

/-! ### Where a segment ends

Each of these splits what follows the start of a segment into the part that still
belongs to it and the rest.
-/

/-- A block comment ends behind the first `*/`, or at the end of the source. -/
def splitBlockComment : List Char → List Char × List Char
  | '*' :: '/' :: rest => (['*', '/'], rest)
  | c :: rest =>
      let (inside, after) := splitBlockComment rest
      (c :: inside, after)
  | [] => ([], [])

/-- The digits behind a point belong to a number; a point without digits does not. -/
def splitFraction : List Char → List Char × List Char
  | '.' :: d :: rest =>
      if d.isDigit then
        ('.' :: d :: rest.takeWhile Char.isDigit, rest.dropWhile Char.isDigit)
      else ([], '.' :: d :: rest)
  | rest => ([], rest)

/-- The number that begins with the digit `c`. -/
def number (c : Char) (rest : List Char) : Segment × List Char :=
  let whole := c :: rest.takeWhile Char.isDigit
  let (fraction, after) := splitFraction (rest.dropWhile Char.isDigit)
  (word .number (whole ++ fraction), after)

/-- The string that begins with a quote; without a second quote it swallows the rest. -/
def string (rest : List Char) : Segment × List Char :=
  match rest.dropWhile (· ≠ '"') with
  | _ :: after => (word .string ('"' :: rest.takeWhile (· ≠ '"') ++ ['"']), after)
  | [] => (openString ('"' :: rest), [])

/-- A slash divides, unless it opens a comment. -/
def slash : List Char → Segment × List Char
  | '/' :: rest =>
      (comment ('/' :: '/' :: rest.takeWhile (· ≠ '\n')), rest.dropWhile (· ≠ '\n'))
  | '*' :: rest =>
      let (inside, after) := splitBlockComment rest
      (comment ('/' :: '*' :: inside), after)
  | rest => (word .slash ['/'], rest)

/-- One of two words, the longer one when `=` follows. -/
def comparison (c : Char) (alone withEqual : TokenKind) : List Char → Segment × List Char
  | '=' :: rest => (word withEqual [c, '='], rest)
  | rest => (word alone [c], rest)

/-- An identifier or a keyword that begins with `c`. -/
def name (c : Char) (rest : List Char) : Segment × List Char :=
  let text := c :: rest.takeWhile isWordPart
  (word (.ofWord (String.ofList text)) text, rest.dropWhile isWordPart)

/-- The segment at the start of the source `c :: rest`, and what comes after it. -/
def first (c : Char) (rest : List Char) : Segment × List Char :=
  if isBlank c then (blank c, rest)
  else if c = '/' then slash rest
  else if c = '"' then string rest
  else if c.isDigit then number c rest
  else if isWordStart c then name c rest
  else
    match punctuation.lookup c, comparisons.lookup c with
    | some kind, _ => (word kind [c], rest)
    | none, some (alone, withEqual) => comparison c alone withEqual rest
    | none, none => (stray c, rest)

/-! ### Cutting loses nothing -/

theorem splitBlockComment_append (cs : List Char) :
    (splitBlockComment cs).1 ++ (splitBlockComment cs).2 = cs := by
  fun_induction splitBlockComment cs <;> simp_all

theorem splitFraction_append (cs : List Char) :
    (splitFraction cs).1 ++ (splitFraction cs).2 = cs := by
  unfold splitFraction
  split
  · split <;> simp [List.takeWhile_append_dropWhile]
  · rfl

theorem number_text (c : Char) (rest : List Char) :
    (number c rest).1.text ++ (number c rest).2 = c :: rest := by
  simp [number, text, splitFraction_append, List.takeWhile_append_dropWhile]

theorem string_text (rest : List Char) :
    (string rest).1.text ++ (string rest).2 = '"' :: rest := by
  unfold string
  split
  · rename_i c after h
    -- What stops the run of other characters is a quote.
    have hc : c = '"' := by
      have := List.head?_dropWhile_not (fun x : Char => decide (x ≠ '"')) rest
      rw [h] at this
      simpa using this
    subst hc
    have := @List.takeWhile_append_dropWhile _ (fun x : Char => decide (x ≠ '"')) rest
    rw [h] at this
    simpa [text] using this
  · simp [text]

theorem slash_text (rest : List Char) :
    (slash rest).1.text ++ (slash rest).2 = '/' :: rest := by
  unfold slash
  split <;> simp [text, splitBlockComment_append, List.takeWhile_append_dropWhile]

theorem comparison_text (c : Char) (alone withEqual : TokenKind) (rest : List Char) :
    (comparison c alone withEqual rest).1.text ++ (comparison c alone withEqual rest).2
      = c :: rest := by
  unfold comparison
  split <;> simp [text]

theorem name_text (c : Char) (rest : List Char) :
    (name c rest).1.text ++ (name c rest).2 = c :: rest := by
  simp [name, text, List.takeWhile_append_dropWhile]

/-- The first segment and what comes after it are the whole source. -/
theorem first_text (c : Char) (rest : List Char) :
    (first c rest).1.text ++ (first c rest).2 = c :: rest := by
  unfold first
  split
  · simp [text]
  split
  · rename_i h; rw [slash_text, h]
  split
  · rename_i h; rw [string_text, h]
  split
  · exact number_text c rest
  split
  · exact name_text c rest
  split
  · simp [text]
  · exact comparison_text c _ _ rest
  · simp [text]

/-- The first segment is never empty. -/
theorem first_text_ne_nil (c : Char) (rest : List Char) : (first c rest).1.text ≠ [] := by
  unfold first slash string number name comparison
  repeat' split
  all_goals simp [text]

/-- Cutting off a segment makes the source shorter. -/
theorem first_length (c : Char) (rest : List Char) :
    (first c rest).2.length < (c :: rest).length := by
  have h := congrArg List.length (first_text c rest)
  have hpos := List.length_pos_iff.mpr (first_text_ne_nil c rest)
  simp only [List.length_append] at h
  omega

end Segment

/-! ### The whole source -/

/-- All segments of a source, in order. -/
def segments : List Char → List Segment
  | [] => []
  | c :: rest =>
      (Segment.first c rest).1 :: segments (Segment.first c rest).2
termination_by source => source.length
decreasing_by exact Segment.first_length c rest

/-- The segments cover the source without gap or overlap. -/
theorem segments_flatMap_text (source : List Char) :
    (segments source).flatMap Segment.text = source := by
  fun_induction segments source with
  | case1 => rfl
  | case2 c rest ih =>
      rw [List.flatMap_cons, ih, Segment.first_text]

end Lox
