/-
What a source is cut into, said without cutting.

A word is a lexeme of some kind, which the rules for its characters say; everything else a
segment can be is said by what it holds and by what it may stand in front of.  Several
segments may fit at one place: `<` fits in front of `=`, and `/` in front of another `/`.
The one that a source has there is the longest, and there is only one such row of segments,
a `Tiling`, for each source.

That `Segment.first` cuts off the longest one is shown in one go.  Whatever else fits at
the start of a source is shorter than what is cut off (`Segment.Fits.first`), one case for
each kind of segment; so whatever is longest is what is cut off.
-/
import Mathlib.Data.List.TakeWhile
import Mathlib.Tactic.ByContra
import Lox.Source.Segment

namespace Lox

open Segment

/-! ### The rules -/

/-- The texts of the words of each kind. -/
inductive Lexeme : TokenKind → List Char → Prop
  | punctuation {c : Char} {kind : TokenKind} (h : (c, kind) ∈ punctuation) : Lexeme kind [c]
  | slash : Lexeme .slash ['/']
  | alone {c : Char} {alone withEqual : TokenKind} (h : (c, alone, withEqual) ∈ comparisons) :
      Lexeme alone [c]
  | withEqual {c : Char} {alone withEqual : TokenKind}
      (h : (c, alone, withEqual) ∈ comparisons) : Lexeme withEqual [c, '=']
  | name {c : Char} {more : List Char} (hstart : isWordStart c = true)
      (hmore : ∀ d ∈ more, isWordPart d = true) :
      Lexeme (.ofWord (String.ofList (c :: more))) (c :: more)
  | whole {c : Char} {more : List Char} (hdigits : ∀ d ∈ c :: more, d.isDigit = true) :
      Lexeme .number (c :: more)
  | fraction {c d : Char} {more others : List Char}
      (hdigits : ∀ x ∈ c :: more, x.isDigit = true)
      (hdecimals : ∀ x ∈ d :: others, x.isDigit = true) :
      Lexeme .number (c :: more ++ '.' :: d :: others)
  | string {inside : List Char} (h : '"' ∉ inside) :
      Lexeme .string ('"' :: inside ++ ['"'])

namespace Segment

/-- What ends a block comment. -/
def closing : List Char := ['*', '/']

/-- A segment may stand in front of the rest of a source. -/
inductive Fits : Segment → List Char → Prop
  | word {kind : TokenKind} {text rest : List Char} (h : Lexeme kind text) :
      Fits (.word kind text) rest
  | blank {c : Char} {rest : List Char} (h : isBlank c = true) : Fits (.blank c) rest
  /-- A comment up to the end of its line, without that. -/
  | lineComment {inside rest : List Char} (h : '\n' ∉ inside)
      (hrest : ∀ c ∈ rest.head?, c = '\n') : Fits (.comment ('/' :: '/' :: inside)) rest
  /-- A comment up to the first mark that closes it. -/
  | blockComment {inside rest : List Char} (h : ¬closing <:+: inside ++ ['*']) :
      Fits (.comment ('/' :: '*' :: (inside ++ closing))) rest
  /-- A comment that is never closed. -/
  | openComment {inside : List Char} (h : ¬closing <:+: inside) :
      Fits (.comment ('/' :: '*' :: inside)) []
  /-- A character with which nothing else can start. -/
  | stray {c : Char} {rest : List Char} (hblank : isBlank c = false) (hquote : c ≠ '"')
      (hword : ∀ kind text, ¬Lexeme kind (c :: text)) : Fits (.stray c) rest
  | openString {inside : List Char} (h : '"' ∉ inside) : Fits (.openString ('"' :: inside)) []

/-- No other segment that may stand in the same place is longer. -/
structure Longest (segment : Segment) (rest : List Char) : Prop where
  fits : segment.Fits rest
  longest : ∀ (other : Segment) (behind : List Char), other.Fits behind →
    other.text ++ behind = segment.text ++ rest →
      other.text.length ≤ segment.text.length

/-- The segments cover the source, each the longest at its place. -/
inductive Tiling : List Segment → List Char → Prop
  | nil : Tiling [] []
  | cons {segment : Segment} {row : List Segment} {rest : List Char}
      (h : segment.Longest rest) (hrow : Tiling row rest) :
      Tiling (segment :: row) (segment.text ++ rest)

/-! ### What the first character decides -/

section Start

variable {c : Char} {rest : List Char}

theorem not_isBlank_of_isDigit (h : c.isDigit = true) : isBlank c = false := by
  by_contra hblank
  simp only [isBlank, Bool.not_eq_false, Bool.or_eq_true, decide_eq_true_eq] at hblank
  rcases hblank with ((rfl | rfl) | rfl) | rfl <;> exact absurd h (by decide)

theorem not_isBlank_of_isWordStart (h : isWordStart c = true) : isBlank c = false := by
  by_contra hblank
  simp only [isBlank, Bool.not_eq_false, Bool.or_eq_true, decide_eq_true_eq] at hblank
  rcases hblank with ((rfl | rfl) | rfl) | rfl <;> exact absurd h (by decide)

theorem not_isDigit_of_isWordStart (h : isWordStart c = true) : c.isDigit = false := by
  by_contra hdigit
  simp only [isWordStart, Bool.not_eq_false, Bool.or_eq_true, decide_eq_true_eq] at h hdigit
  rcases h with h | rfl
  · delta Char.isAlpha Char.isUpper Char.isLower at h
    simp only [Char.isDigit, Bool.or_eq_true, Bool.and_eq_true, decide_eq_true_eq,
      UInt32.le_iff_toNat_le] at h hdigit
    simp at h hdigit
    omega
  · exact absurd hdigit (by decide)

theorem first_blank (h : isBlank c = true) : first c rest = (blank c, rest) := by
  rw [first, if_pos h]

theorem first_slash : first '/' rest = slash rest := by
  rw [first, if_neg (by decide), if_pos rfl]

theorem first_string : first '"' rest = string rest := by
  rw [first, if_neg (by decide), if_neg (by decide), if_pos rfl]

theorem first_number (h : c.isDigit = true) : first c rest = number c rest := by
  have hslash : c ≠ '/' := by
    rintro rfl
    exact absurd h (by decide)
  have hquote : c ≠ '"' := by
    rintro rfl
    exact absurd h (by decide)
  rw [first, not_isBlank_of_isDigit h, if_neg (by decide), if_neg hslash, if_neg hquote, if_pos h]

theorem first_name (h : isWordStart c = true) : first c rest = name c rest := by
  have hslash : c ≠ '/' := by
    rintro rfl
    exact absurd h (by decide)
  have hquote : c ≠ '"' := by
    rintro rfl
    exact absurd h (by decide)
  rw [first, not_isBlank_of_isWordStart h, if_neg (by decide), if_neg hslash, if_neg hquote,
    not_isDigit_of_isWordStart h, if_neg (by decide), if_pos h]

theorem first_punctuation {kind : TokenKind} (h : (c, kind) ∈ punctuation) :
    first c rest = (word kind [c], rest) := by
  simp only [punctuation, List.mem_cons, Prod.mk.injEq, List.not_mem_nil, or_false] at h
  rcases h with ⟨rfl, rfl⟩ | ⟨rfl, rfl⟩ | ⟨rfl, rfl⟩ | ⟨rfl, rfl⟩ | ⟨rfl, rfl⟩ | ⟨rfl, rfl⟩ |
    ⟨rfl, rfl⟩ | ⟨rfl, rfl⟩ | ⟨rfl, rfl⟩ | ⟨rfl, rfl⟩ | ⟨rfl, rfl⟩ | ⟨rfl, rfl⟩ <;> rfl

theorem first_comparison {alone withEqual : TokenKind} (h : (c, alone, withEqual) ∈ comparisons) :
    first c rest = comparison c alone withEqual rest := by
  simp only [comparisons, List.mem_cons, Prod.mk.injEq, List.not_mem_nil, or_false] at h
  rcases h with ⟨rfl, rfl, rfl⟩ | ⟨rfl, rfl, rfl⟩ | ⟨rfl, rfl, rfl⟩ | ⟨rfl, rfl, rfl⟩ <;> rfl

/-- What starts no lexeme is cut off as a single character. -/
theorem first_stray (hblank : isBlank c = false) (hquote : c ≠ '"')
    (hword : ∀ kind text, ¬Lexeme kind (c :: text)) : first c rest = (stray c, rest) := by
  have hslash : c ≠ '/' := by
    rintro rfl
    exact hword _ _ .slash
  have hdigit : ¬c.isDigit = true := fun h => hword _ [] (.whole (by simpa using h))
  have hstart : ¬isWordStart c = true := fun h => hword _ [] (.name h (by simp))
  have hpunctuation : punctuation.lookup c = none := by
    rw [List.lookup_eq_none_iff]
    rintro ⟨d, kind⟩ hmem
    by_contra heq
    obtain rfl : c = d := by simpa using heq
    exact hword _ _ (.punctuation hmem)
  have hcomparison : comparisons.lookup c = none := by
    rw [List.lookup_eq_none_iff]
    rintro ⟨d, alone, withEqual⟩ hmem
    by_contra heq
    obtain rfl : c = d := by simpa using heq
    exact hword _ _ (.alone hmem)
  rw [first, hblank, if_neg (by decide), if_neg hslash, if_neg hquote, if_neg hdigit,
    if_neg hstart, hpunctuation, hcomparison]

end Start

/-! ### Where a comment ends -/

theorem not_closing_cons {c : Char} {text : List Char} (h : ¬closing <:+: c :: text) :
    ¬closing <:+: text ∧ ¬(c = '*' ∧ text.head? = some '/') := by
  refine ⟨fun hwithin => h (hwithin.trans (List.suffix_cons c text).isInfix), ?_⟩
  rintro ⟨rfl, hhead⟩
  obtain ⟨more, rfl⟩ : ∃ more, text = '/' :: more := by
    cases text with
    | nil => exact absurd hhead (by simp)
    | cons d more => exact ⟨more, by rw [Option.some.inj hhead]⟩
  exact h (List.prefix_append closing more).isInfix

theorem closing_cons {c : Char} {text : List Char} (h : ¬closing <:+: text)
    (hstart : ¬(c = '*' ∧ text.head? = some '/')) : ¬closing <:+: c :: text := by
  intro hwithin
  rcases List.infix_cons_iff.mp hwithin with hprefix | hwithin
  · obtain ⟨more, heq⟩ := hprefix
    obtain ⟨rfl, rfl⟩ := List.cons.inj heq
    exact hstart ⟨rfl, rfl⟩
  · exact h hwithin

/-- Characters in front of which nothing closes belong to the comment. -/
theorem splitBlockComment_cons {c : Char} {text : List Char}
    (h : ¬(c = '*' ∧ text.head? = some '/')) :
    splitBlockComment (c :: text) = (c :: (splitBlockComment text).1, (splitBlockComment text).2) :=
  splitBlockComment.eq_2 c text fun more hstar htext => h ⟨hstar, by rw [htext]; rfl⟩

theorem splitBlockComment_closed {inside rest : List Char} (h : ¬closing <:+: inside ++ ['*']) :
    splitBlockComment (inside ++ closing ++ rest) = (inside ++ closing, rest) := by
  induction inside with
  | nil => rfl
  | cons c inside ih =>
      obtain ⟨hrest, hstart⟩ := not_closing_cons h
      have hstart : ¬(c = '*' ∧ (inside ++ closing ++ rest).head? = some '/') := by
        cases inside with
        | nil => simp [closing]
        | cons d more => simpa using hstart
      rw [List.cons_append, List.cons_append, splitBlockComment_cons hstart, ih hrest]

theorem splitBlockComment_open {inside : List Char} (h : ¬closing <:+: inside) :
    splitBlockComment inside = (inside, []) := by
  induction inside with
  | nil => rfl
  | cons c inside ih =>
      obtain ⟨hrest, hstart⟩ := not_closing_cons h
      rw [splitBlockComment_cons hstart, ih hrest]

/-- What is split off is closed by its end, or else it is all there is. -/
theorem splitBlockComment_cases (text : List Char) :
    (∃ inside, (splitBlockComment text).1 = inside ++ closing ∧ ¬closing <:+: inside ++ ['*']) ∨
      ((splitBlockComment text).2 = [] ∧ ¬closing <:+: (splitBlockComment text).1) := by
  fun_induction splitBlockComment text with
  | case1 rest => exact Or.inl ⟨[], rfl, by decide⟩
  | case2 c rest hstart inside after heq ih =>
      have hhead : ¬(c = '*' ∧ rest.head? = some '/') := by
        rintro ⟨hstar, hhead⟩
        cases rest with
        | nil => exact absurd hhead (by simp)
        | cons d more => exact hstart more hstar (by rw [Option.some.inj hhead])
      have happend := splitBlockComment_append rest
      rw [heq] at ih happend
      rcases ih with ⟨body, hinside, hbody⟩ | ⟨hafter, hinside⟩
      · refine Or.inl ⟨c :: body, congrArg (c :: ·) hinside, closing_cons hbody ?_⟩
        rw [← happend, show inside = _ from hinside] at hhead
        cases body with
        | nil => simp
        | cons d more => simpa using hhead
      · refine Or.inr ⟨hafter, closing_cons hinside ?_⟩
        rwa [← happend, show after = [] from hafter, List.append_nil] at hhead
  | case3 => exact Or.inr ⟨rfl, by decide⟩

/-! ### What fits is not longer than what is cut off -/

/-- What is cut off is this segment, or it is longer. -/
def Reaches (segment : Segment) (rest : List Char) (cut : Segment × List Char) : Prop :=
  cut = (segment, rest) ∨ segment.text.length < cut.1.text.length

section Reaches

variable {c : Char} {rest more : List Char}

theorem name_reaches (hmore : ∀ d ∈ more, isWordPart d = true) :
    Reaches (.word (.ofWord (String.ofList (c :: more))) (c :: more)) rest
      (name c (more ++ rest)) := by
  have hsplit := List.takeWhile_append_dropWhile (p := isWordPart) (l := rest)
  unfold Reaches name
  rw [List.takeWhile_append_of_pos hmore, List.dropWhile_append_of_pos hmore]
  cases htake : rest.takeWhile isWordPart with
  | nil =>
      rw [htake, List.nil_append] at hsplit
      rw [List.append_nil, hsplit]
      exact Or.inl rfl
  | cons d others =>
      refine Or.inr ?_
      simp only [text, List.length_cons, List.length_append]
      omega

theorem whole_reaches (hmore : ∀ d ∈ more, d.isDigit = true) :
    Reaches (.word .number (c :: more)) rest (number c (more ++ rest)) := by
  have hsplit := List.takeWhile_append_dropWhile (p := Char.isDigit) (l := rest)
  have hfraction := splitFraction_append (rest.dropWhile Char.isDigit)
  unfold Reaches number
  rw [List.takeWhile_append_of_pos hmore, List.dropWhile_append_of_pos hmore]
  generalize splitFraction _ = parts at hfraction ⊢
  obtain ⟨fraction, after⟩ := parts
  by_cases hnothing : rest.takeWhile Char.isDigit = [] ∧ fraction = []
  · obtain ⟨htake, rfl⟩ := hnothing
    rw [htake, List.nil_append] at hsplit
    obtain rfl : after = rest := hfraction.trans hsplit
    simp [htake]
  · refine Or.inr ?_
    have hpos : 0 < (rest.takeWhile Char.isDigit).length + fraction.length := by
      by_contra hzero
      exact hnothing ⟨List.eq_nil_of_length_eq_zero (by omega),
        List.eq_nil_of_length_eq_zero (by omega)⟩
    simp only [text, List.length_cons, List.length_append]
    omega

theorem fraction_reaches {d : Char} {others : List Char} (hmore : ∀ x ∈ more, x.isDigit = true)
    (hdecimals : ∀ x ∈ d :: others, x.isDigit = true) :
    Reaches (.word .number (c :: more ++ '.' :: d :: others)) rest
      (number c (more ++ '.' :: d :: others ++ rest)) := by
  rw [List.forall_mem_cons] at hdecimals
  have hsplit := List.takeWhile_append_dropWhile (p := Char.isDigit) (l := rest)
  have hdot : Char.isDigit '.' = false := by decide
  unfold Reaches number
  rw [List.append_assoc, List.takeWhile_append_of_pos hmore, List.dropWhile_append_of_pos hmore]
  simp only [List.cons_append, List.takeWhile_cons, List.dropWhile_cons, hdot,
    Bool.false_eq_true, if_false, List.append_nil, splitFraction, hdecimals.1, if_true,
    List.takeWhile_append_of_pos hdecimals.2, List.dropWhile_append_of_pos hdecimals.2]
  cases htake : rest.takeWhile Char.isDigit with
  | nil =>
      rw [htake, List.nil_append] at hsplit
      rw [List.append_nil, hsplit]
      exact Or.inl rfl
  | cons x digits =>
      refine Or.inr ?_
      simp only [text, List.length_cons, List.length_append]
      omega

theorem alone_reaches {alone withEqual : TokenKind} :
    Reaches (.word alone [c]) rest (comparison c alone withEqual rest) := by
  unfold Reaches comparison
  split
  · exact Or.inr (by simp [text])
  · exact Or.inl rfl

theorem slash_reaches : Reaches (.word .slash ['/']) rest (slash rest) := by
  unfold Reaches slash
  split
  · exact Or.inr (by simp [text])
  · exact Or.inr (by simp [text])
  · exact Or.inl rfl

theorem string_reaches {inside : List Char} (h : '"' ∉ inside) :
    string (inside ++ '"' :: rest) = (.word .string ('"' :: inside ++ ['"']), rest) := by
  have hinside : ∀ x ∈ inside, decide (x ≠ '"') = true := by
    intro x hx
    exact decide_eq_true fun heq => h (heq ▸ hx)
  unfold string
  rw [List.takeWhile_append_of_pos hinside, List.dropWhile_append_of_pos hinside]
  simp

theorem openString_reaches {inside : List Char} (h : '"' ∉ inside) :
    string inside = (.openString ('"' :: inside), []) := by
  have hinside : inside.dropWhile (fun x => decide (x ≠ '"')) = [] := by
    rw [List.dropWhile_eq_nil_iff]
    exact fun x hx => decide_eq_true fun heq => h (heq ▸ hx)
  unfold string
  rw [hinside]

theorem lineComment_reaches {inside : List Char} (h : '\n' ∉ inside)
    (hrest : ∀ c ∈ rest.head?, c = '\n') :
    slash ('/' :: (inside ++ rest)) = (.comment ('/' :: '/' :: inside), rest) := by
  have hinside : ∀ x ∈ inside, decide (x ≠ '\n') = true := by
    intro x hx
    exact decide_eq_true fun heq => h (heq ▸ hx)
  rw [slash, List.takeWhile_append_of_pos hinside, List.dropWhile_append_of_pos hinside]
  cases rest with
  | nil => simp
  | cons c more => simp [hrest c rfl]

theorem blockComment_reaches {inside : List Char} (h : ¬closing <:+: inside ++ ['*']) :
    slash ('*' :: (inside ++ closing ++ rest))
      = (.comment ('/' :: '*' :: (inside ++ closing)), rest) := by
  rw [slash, splitBlockComment_closed h]

theorem openComment_reaches {inside : List Char} (h : ¬closing <:+: inside) :
    slash ('*' :: inside) = (.comment ('/' :: '*' :: inside), []) := by
  rw [slash, splitBlockComment_open h]

theorem word_reaches {kind : TokenKind} {word more : List Char} (h : Lexeme kind word)
    (hsource : word ++ rest = c :: more) : Reaches (.word kind word) rest (first c more) := by
  cases h with
  | punctuation h =>
      obtain ⟨rfl, rfl⟩ := List.cons.inj hsource
      exact Or.inl (first_punctuation h)
  | slash =>
      obtain ⟨rfl, rfl⟩ := List.cons.inj hsource
      rw [first_slash]
      exact slash_reaches
  | alone h =>
      obtain ⟨rfl, rfl⟩ := List.cons.inj hsource
      rw [first_comparison h]
      exact alone_reaches
  | withEqual h =>
      obtain ⟨rfl, rfl⟩ := List.cons.inj hsource
      exact Or.inl (first_comparison h)
  | name hstart hmore =>
      obtain ⟨rfl, rfl⟩ := List.cons.inj hsource
      rw [first_name hstart]
      exact name_reaches hmore
  | whole hdigits =>
      rw [List.forall_mem_cons] at hdigits
      obtain ⟨rfl, rfl⟩ := List.cons.inj hsource
      rw [first_number hdigits.1]
      exact whole_reaches hdigits.2
  | fraction hdigits hdecimals =>
      rw [List.forall_mem_cons] at hdigits
      obtain ⟨rfl, rfl⟩ := List.cons.inj hsource
      rw [first_number hdigits.1]
      exact fraction_reaches hdigits.2 hdecimals
  | @string inside h =>
      obtain ⟨rfl, rfl⟩ := List.cons.inj hsource
      rw [first_string]
      exact Or.inl (by simpa using string_reaches h)

end Reaches

/-- Whatever fits at the start of a source is what is cut off, or it is shorter. -/
theorem Fits.first {segment : Segment} {c : Char} {rest more : List Char} (h : segment.Fits rest)
    (hsource : segment.text ++ rest = c :: more) : Reaches segment rest (first c more) := by
  cases h with
  | word h => exact word_reaches h hsource
  | blank h =>
      obtain ⟨rfl, rfl⟩ := List.cons.inj hsource
      exact Or.inl (first_blank h)
  | lineComment h hrest =>
      obtain ⟨rfl, rfl⟩ := List.cons.inj hsource
      rw [first_slash]
      exact Or.inl (lineComment_reaches h hrest)
  | blockComment h =>
      obtain ⟨rfl, rfl⟩ := List.cons.inj hsource
      rw [first_slash]
      exact Or.inl (blockComment_reaches h)
  | @openComment inside h =>
      obtain ⟨rfl, rfl⟩ := List.cons.inj hsource
      rw [first_slash]
      exact Or.inl (by simpa using openComment_reaches h)
  | stray hblank hquote hword =>
      obtain ⟨rfl, rfl⟩ := List.cons.inj hsource
      exact Or.inl (first_stray hblank hquote hword)
  | openString h =>
      obtain ⟨rfl, rfl⟩ := List.cons.inj hsource
      rw [first_string]
      exact Or.inl (by simpa using openString_reaches h)

/-! ### What is cut off fits -/

section Cut

variable {c : Char} {rest : List Char}

theorem string_fits : (string rest).1.Fits (string rest).2 := by
  have hsplit := List.takeWhile_append_dropWhile (p := fun x => decide (x ≠ '"')) (l := rest)
  have hinside : '"' ∉ rest.takeWhile (fun x => decide (x ≠ '"')) := fun hmem => by
    simpa using List.mem_takeWhile_imp hmem
  unfold string
  split
  · exact .word (.string hinside)
  · rename_i hdrop
    rw [hdrop, List.append_nil] at hsplit
    exact .openString (hsplit ▸ hinside)

theorem slash_fits : (slash rest).1.Fits (slash rest).2 := by
  unfold slash
  split
  · rename_i more
    refine .lineComment (fun hmem => ?_) fun d hd => ?_
    · simpa using List.mem_takeWhile_imp hmem
    · have hstop := List.head?_dropWhile_not (fun x : Char => decide (x ≠ '\n')) more
      rw [Option.mem_def.mp hd] at hstop
      simpa using hstop
  · rename_i more
    rcases splitBlockComment_cases more with ⟨inside, hinside, hbody⟩ | ⟨hafter, hinside⟩
    · dsimp only
      rw [hinside]
      exact .blockComment hbody
    · dsimp only
      rw [hafter]
      exact .openComment hinside
  · exact .word .slash

theorem splitFraction_cases (rest : List Char) :
    (splitFraction rest).1 = [] ∨ ∃ d others, (splitFraction rest).1 = '.' :: d :: others ∧
      ∀ x ∈ d :: others, x.isDigit = true := by
  unfold splitFraction
  split
  · split
    · rename_i hd
      exact Or.inr ⟨_, _, rfl, List.forall_mem_cons.mpr ⟨hd, fun x hx => List.mem_takeWhile_imp hx⟩⟩
    · exact Or.inl rfl
  · exact Or.inl rfl

theorem number_fits (h : c.isDigit = true) : (number c rest).1.Fits (number c rest).2 := by
  have hdigits : ∀ x ∈ c :: rest.takeWhile Char.isDigit, x.isDigit = true :=
    List.forall_mem_cons.mpr ⟨h, fun x hx => List.mem_takeWhile_imp hx⟩
  have hfraction := splitFraction_cases (rest.dropWhile Char.isDigit)
  unfold number
  generalize splitFraction _ = parts at hfraction ⊢
  obtain ⟨fraction, after⟩ := parts
  rcases hfraction with rfl | ⟨d, others, rfl, hdecimals⟩
  · exact .word (by simpa using .whole hdigits)
  · exact .word (.fraction hdigits hdecimals)

theorem comparison_fits {alone withEqual : TokenKind} (h : (c, alone, withEqual) ∈ comparisons) :
    (comparison c alone withEqual rest).1.Fits (comparison c alone withEqual rest).2 := by
  unfold comparison
  split
  · exact .word (.withEqual h)
  · exact .word (.alone h)

/-- A character that starts no lexeme by itself starts none at all. -/
theorem starts_of_lexeme {kind : TokenKind} {more : List Char} (h : Lexeme kind (c :: more))
    (hquote : c ≠ '"') : c = '/' ∨ c.isDigit = true ∨ isWordStart c = true ∨
      (∃ kind, (c, kind) ∈ punctuation) ∨ ∃ kinds, (c, kinds) ∈ comparisons := by
  generalize hword : c :: more = word at h
  cases h with
  | punctuation h =>
      obtain ⟨rfl, -⟩ := List.cons.inj hword
      exact Or.inr (Or.inr (Or.inr (Or.inl ⟨_, h⟩)))
  | slash => exact Or.inl (List.cons.inj hword).1
  | alone h | withEqual h =>
      obtain ⟨rfl, -⟩ := List.cons.inj hword
      exact Or.inr (Or.inr (Or.inr (Or.inr ⟨_, h⟩)))
  | name hstart hmore =>
      obtain ⟨rfl, -⟩ := List.cons.inj hword
      exact Or.inr (Or.inr (Or.inl hstart))
  | whole hdigits | fraction hdigits _ =>
      obtain ⟨rfl, -⟩ := List.cons.inj hword
      exact Or.inr (Or.inl (hdigits _ List.mem_cons_self))
  | string => exact absurd (List.cons.inj hword).1 hquote

theorem first_fits (c : Char) (rest : List Char) : (first c rest).1.Fits (first c rest).2 := by
  by_cases hblank : isBlank c = true
  · rw [first_blank hblank]
    exact .blank hblank
  by_cases hslash : c = '/'
  · subst hslash
    rw [first_slash]
    exact slash_fits
  by_cases hquote : c = '"'
  · subst hquote
    rw [first_string]
    exact string_fits
  by_cases hdigit : c.isDigit = true
  · rw [first_number hdigit]
    exact number_fits hdigit
  by_cases hstart : isWordStart c = true
  · rw [first_name hstart]
    exact .word (.name hstart fun x hx => List.mem_takeWhile_imp hx)
  by_cases hpunctuation : ∃ kind, (c, kind) ∈ punctuation
  · obtain ⟨kind, h⟩ := hpunctuation
    rw [first_punctuation h]
    exact .word (.punctuation h)
  by_cases hcomparison : ∃ kinds, (c, kinds) ∈ comparisons
  · obtain ⟨⟨alone, withEqual⟩, h⟩ := hcomparison
    rw [first_comparison h]
    exact comparison_fits h
  -- Nothing is left that a lexeme could start with.
  have hword : ∀ kind text, ¬Lexeme kind (c :: text) := by
    intro kind text h
    rcases starts_of_lexeme h hquote with h | h | h | h | h
    · exact hslash h
    · exact hdigit h
    · exact hstart h
    · exact hpunctuation h
    · exact hcomparison h
  have hblank : isBlank c = false := Bool.eq_false_iff.mpr hblank
  rw [first_stray hblank hquote hword]
  exact .stray hblank hquote hword

/-- What is cut off is the longest segment that fits. -/
theorem first_longest (c : Char) (rest : List Char) :
    (first c rest).1.Longest (first c rest).2 := by
  refine ⟨first_fits c rest, fun other behind hother hsource => ?_⟩
  rcases hother.first (hsource.trans (first_text c rest)) with hcut | hshort
  · rw [hcut]
  · exact Nat.le_of_lt hshort

/-- Whatever is longest is what is cut off. -/
theorem Longest.eq_first {segment : Segment} {behind : List Char} (h : segment.Longest behind)
    (hsource : segment.text ++ behind = c :: rest) : first c rest = (segment, behind) := by
  rcases h.fits.first hsource with hcut | hshort
  · exact hcut
  · have hle := h.longest _ _ (first_fits c rest) ((first_text c rest).trans hsource.symm)
    omega

/-- A segment that fits is not empty. -/
theorem Fits.text_ne_nil {segment : Segment} (h : segment.Fits rest) : segment.text ≠ [] := by
  cases h with
  | word h => cases h <;> simp [text]
  | _ => simp [text]

end Cut

end Segment

end Lox
