/-
Words that are written out again.

A word ends where a blank stands: no lexeme but a string has a blank in it, and a string
ends at its own quote.  So whatever a word could merge with, a space behind it keeps the two
apart, and a row of words with spaces in between is cut back into that row, however the
words had stood next to each other before.
-/
import Lox.Proofs.Source.Lexemes
import Lox.Proofs.Source.Spelling

namespace Lox

namespace Segment

/-! ### A word in front of a blank -/

/-- The text is at its end, or it goes on with a blank. -/
def Apart (rest : List Char) : Prop :=
  ∀ c ∈ rest.head?, isBlank c = true

section Apart

variable {c : Char} {more rest : List Char}

theorem apart_nil : Apart [] :=
  fun _ h => nomatch h

theorem apart_space : Apart (' ' :: rest) :=
  fun _ h => Option.some.inj h ▸ rfl

/-- What blanks do not have takes nothing from the text behind the word. -/
theorem Apart.span {p : Char → Bool} (h : Apart rest) (hp : ∀ c, isBlank c = true → p c = false) :
    rest.takeWhile p = [] ∧ rest.dropWhile p = rest := by
  cases rest with
  | nil => exact ⟨rfl, rfl⟩
  | cons c behind => simp [hp c (h c rfl)]

theorem not_isDigit_of_isBlank (h : isBlank c = true) : c.isDigit = false := by
  by_contra hdigit
  rw [Bool.not_eq_false] at hdigit
  exact absurd (not_isBlank_of_isDigit hdigit) (by simp [h])

theorem not_isWordPart_of_isBlank (h : isBlank c = true) : isWordPart c = false := by
  simp only [isBlank, Bool.or_eq_true, decide_eq_true_eq] at h
  rcases h with ((rfl | rfl) | rfl) | rfl <;> decide

theorem Apart.slash (h : Apart rest) : slash rest = (.word .slash ['/'], rest) := by
  unfold Segment.slash
  split
  · exact absurd (h '/' rfl) (by decide)
  · exact absurd (h '*' rfl) (by decide)
  · rfl

theorem Apart.comparison (h : Apart rest) (alone withEqual : TokenKind) :
    comparison c alone withEqual rest = (.word alone [c], rest) := by
  unfold Segment.comparison
  split
  · exact absurd (h '=' rfl) (by decide)
  · rfl

theorem Apart.splitFraction (h : Apart rest) : splitFraction rest = ([], rest) := by
  unfold Segment.splitFraction
  split
  · exact absurd (h '.' rfl) (by decide)
  · rfl

theorem Apart.name (h : Apart rest) (hmore : ∀ d ∈ more, isWordPart d = true) :
    name c (more ++ rest) = (.word (.ofWord (String.ofList (c :: more))) (c :: more), rest) := by
  obtain ⟨htake, hdrop⟩ := h.span fun _ => not_isWordPart_of_isBlank
  unfold Segment.name
  rw [List.takeWhile_append_of_pos hmore, List.dropWhile_append_of_pos hmore, htake, hdrop,
    List.append_nil]

theorem Apart.whole (h : Apart rest) (hmore : ∀ d ∈ more, d.isDigit = true) :
    number c (more ++ rest) = (.word .number (c :: more), rest) := by
  obtain ⟨htake, hdrop⟩ := h.span fun _ => not_isDigit_of_isBlank
  unfold number
  rw [List.takeWhile_append_of_pos hmore, List.dropWhile_append_of_pos hmore, htake, hdrop,
    h.splitFraction]
  simp

theorem Apart.fraction {d : Char} {others : List Char} (h : Apart rest)
    (hmore : ∀ x ∈ more, x.isDigit = true) (hdecimals : ∀ x ∈ d :: others, x.isDigit = true) :
    number c (more ++ '.' :: d :: others ++ rest)
      = (.word .number (c :: more ++ '.' :: d :: others), rest) := by
  rw [List.forall_mem_cons] at hdecimals
  obtain ⟨htake, hdrop⟩ := h.span fun _ => not_isDigit_of_isBlank
  have hdot : Char.isDigit '.' = false := by decide
  have hwhole : (more ++ '.' :: d :: (others ++ rest)).takeWhile Char.isDigit = more ∧
      (more ++ '.' :: d :: (others ++ rest)).dropWhile Char.isDigit
        = '.' :: d :: (others ++ rest) := by
    rw [List.takeWhile_append_of_pos hmore, List.dropWhile_append_of_pos hmore]
    simp [hdot]
  unfold number
  rw [List.append_assoc, List.cons_append, List.cons_append, hwhole.1, hwhole.2, Segment.splitFraction,
    if_pos hdecimals.1, List.takeWhile_append_of_pos hdecimals.2,
    List.dropWhile_append_of_pos hdecimals.2, htake, hdrop, List.append_nil]

/-- A word ends where its text ends or a blank follows. -/
theorem first_apart {kind : TokenKind} (h : Lexeme kind (c :: more)) (hrest : Apart rest) :
    first c (more ++ rest) = (.word kind (c :: more), rest) := by
  generalize hword : c :: more = word at h
  cases h with
  | punctuation h =>
      obtain ⟨rfl, rfl⟩ := List.cons.inj hword
      exact first_punctuation h
  | slash =>
      obtain ⟨rfl, rfl⟩ := List.cons.inj hword
      exact first_slash.trans hrest.slash
  | alone h =>
      obtain ⟨rfl, rfl⟩ := List.cons.inj hword
      exact (first_comparison h).trans (hrest.comparison _ _)
  | withEqual h =>
      obtain ⟨rfl, rfl⟩ := List.cons.inj hword
      exact first_comparison h
  | name hstart hmore =>
      obtain ⟨rfl, rfl⟩ := List.cons.inj hword
      exact (first_name hstart).trans (hrest.name hmore)
  | whole hdigits =>
      rw [List.forall_mem_cons] at hdigits
      obtain ⟨rfl, rfl⟩ := List.cons.inj hword
      exact (first_number hdigits.1).trans (hrest.whole hdigits.2)
  | fraction hdigits hdecimals =>
      rw [List.forall_mem_cons] at hdigits
      obtain ⟨rfl, rfl⟩ := List.cons.inj hword
      exact (first_number hdigits.1).trans (hrest.fraction hdigits.2 hdecimals)
  | string h =>
      obtain ⟨rfl, rfl⟩ := List.cons.inj hword
      rw [first_string]
      simpa using string_reaches h

/-- The first segment of a word with a blank behind it is the word. -/
theorem segments_apart {kind : TokenKind} {word : List Char} (h : Lexeme kind word)
    (hrest : Apart rest) : segments (word ++ rest) = .word kind word :: segments rest := by
  cases word with
  | nil => exact absurd rfl (Fits.text_ne_nil (.word h : Fits _ rest))
  | cons c more => rw [List.cons_append, segments, first_apart h hrest]

end Apart

end Segment

namespace Lexed

/-- The words of a row with single spaces in between. -/
def spaced (row : List Token) : String :=
  " ".intercalate (row.map Token.lexeme)

/-- What a word is, wherever it stands. -/
def word (token : Token) : TokenKind × String × Option Literal :=
  (token.kind, token.lexeme, token.literal?)

theorem toList_spaced_cons {token : Token} {rest : List Token} (h : rest ≠ []) :
    (spaced (token :: rest)).toList = token.lexeme.toList ++ ' ' :: (spaced rest).toList := by
  rw [spaced, List.map_cons, String.intercalate_cons_of_ne_nil (by simpa using h)]
  simp [spaced]

/-- The words of a row with spaces in between are cut off one after the other. -/
theorem segments_spaced {row : List Token}
    (h : ∀ token ∈ row, Lexeme token.kind token.lexeme.toList) :
    segments (spaced row).toList
      = (row.map fun token => Segment.word token.kind token.lexeme.toList).intersperse
          (.blank ' ') := by
  induction row with
  | nil =>
      rw [show (spaced []).toList = [] from rfl, segments]
      rfl
  | cons token rest ih =>
      rw [List.forall_mem_cons] at h
      cases rest with
      | nil =>
          have hcut := Segment.segments_apart h.1 Segment.apart_nil
          rwa [List.append_nil, segments] at hcut
      | cons next rest =>
          have hblank : segments (' ' :: (spaced (next :: rest)).toList)
              = .blank ' ' :: segments (spaced (next :: rest)).toList := by
            rw [segments]
            rfl
          rw [toList_spaced_cons (List.cons_ne_nil _ _),
            Segment.segments_apart h.1 Segment.apart_space, hblank, ih h.2]
          rfl

/-- Words that are segments with blanks in between are what is read of these. -/
theorem ofSegments_intersperse (row : List Token) (line : Nat) :
    let again := ofSegments line
      ((row.map fun token => Segment.word token.kind token.lexeme.toList).intersperse (.blank ' '))
    again.faults = [] ∧ again.tokens.map word = row.map word := by
  -- Of a token itself only the line may change.
  have hword (token : Token) (line : Nat) :
      word ⟨token.kind, String.ofList token.lexeme.toList, line⟩ = word token := by
    rw [String.ofList_toList]
    rfl
  induction row generalizing line with
  | nil => exact ⟨rfl, rfl⟩
  | cons token rest ih =>
      cases rest with
      | nil => exact ⟨rfl, congrArg (· :: []) (hword token _)⟩
      | cons next rest =>
          obtain ⟨hfaults, htokens⟩ := ih (line + _ + _)
          exact ⟨hfaults, congrArg₂ (· :: ·) (hword token _) htokens⟩

/-- **Scanning undoes the writing of words.**  The words of any source, whatever else is wrong
with it, written out with single spaces in between are the same words again: without a fault,
in the same order, and equal but for their lines. -/
theorem ofSource_spaced (source : String) :
    (ofSource (spaced (ofSource source).tokens)).faults = [] ∧
      (ofSource (spaced (ofSource source).tokens)).tokens.map word
        = (ofSource source).tokens.map word := by
  rw [ofSource, segments_spaced (ofSource_lexeme source)]
  exact ofSegments_intersperse _ 1

/-- Words that stood close together. -/
example : spaced (ofSource "a!==1.x/=\"/*\"").tokens = "a != = 1 . x / = \"/*\"" := by
  decide +kernel

end Lexed

end Lox
