/-
How the words of a source are spelled.

The words of a source are lexemes, and what is no name, number or string is spelled in one
way only.  A word of letters is a keyword exactly if the table of keywords says so, which
decides what names can look like: no identifier is spelled `this` or `super`.
-/
import Lox.Proofs.Source.Lexemes
import Lox.Proofs.Syntax.Trees
import Lox.Source.Lexed

namespace Lox

namespace TokenKind

/-- The kinds that a word of letters can have. -/
def isWord : TokenKind → Bool
  | identifier | kwAnd | kwBreak | kwClass | kwElse | kwFalse | kwFun | kwFor | kwIf | kwNil
  | kwOr | kwPrint | kwReturn | kwSuper | kwThis | kwTrue | kwVar | kwWhile => true
  | _ => false

theorem eq_of_ofWord {word : String} {kind : TokenKind} (h : ofWord word = kind)
    (hkind : kind ≠ identifier) : (word, kind) ∈ keywords := by
  unfold ofWord at h
  cases hlookup : keywords.lookup word with
  | none => exact absurd (by simpa [hlookup] using h.symm) hkind
  | some found =>
      obtain rfl : found = kind := by simpa [hlookup] using h
      obtain ⟨before, behind, heq, -⟩ := List.lookup_eq_some_iff.mp hlookup
      rw [heq]
      simp

theorem ofWord_isWord (word : String) : (ofWord word).isWord = true := by
  have hkeywords : ∀ entry ∈ keywords, entry.2.isWord = true := by decide
  by_cases h : ofWord word = identifier
  · rw [h]
    rfl
  · exact hkeywords _ (eq_of_ofWord rfl h)

end TokenKind

namespace Token

/-- A word of letters has the kind that its spelling has. -/
def Spelled (token : Token) : Prop :=
  token.kind.isWord → TokenKind.ofWord token.lexeme = token.kind

variable {token : Token}

theorem Spelled.ordinary (h : token.Spelled) (hkind : token.kind = .identifier) :
    Ordinary token.lexeme := by
  have hword : TokenKind.ofWord token.lexeme = .identifier := by
    rw [h (by rw [hkind]; rfl), hkind]
  constructor <;> intro heq <;> rw [heq] at hword <;> exact absurd hword (by decide)

theorem Spelled.this (h : token.Spelled) (hkind : token.kind = .kwThis) :
    token.lexeme = "this" := by
  have hword : TokenKind.ofWord token.lexeme = .kwThis := by
    rw [h (by rw [hkind]; rfl), hkind]
  simpa [keywords] using TokenKind.eq_of_ofWord hword (by decide)

theorem Spelled.super (h : token.Spelled) (hkind : token.kind = .kwSuper) :
    token.lexeme = "super" := by
  have hword : TokenKind.ofWord token.lexeme = .kwSuper := by
    rw [h (by rw [hkind]; rfl), hkind]
  simpa [keywords] using TokenKind.eq_of_ofWord hword (by decide)

end Token

/-! ### The words of a source -/

/-- The words of every source are as the words are that are cut off one after the other. -/
theorem Lexed.ofSource_forall {P : TokenKind → List Char → Prop}
    (h : ∀ c rest kind text, (Segment.first c rest).1 = .word kind text → P kind text)
    (source : String) : ∀ token ∈ (ofSource source).tokens, P token.kind token.lexeme.toList := by
  have hsegments : ∀ source : List Char, ∀ segment ∈ segments source, ∀ kind text,
      segment = .word kind text → P kind text := by
    intro source
    fun_induction segments source with
    | case1 => simp
    | case2 c rest ih =>
        intro segment hsegment
        rcases List.mem_cons.mp hsegment with rfl | hsegment
        · exact h c rest
        · exact ih segment hsegment
  have htokens : ∀ (row : List Segment) (line : Nat),
      (∀ segment ∈ row, ∀ kind text, segment = .word kind text → P kind text) →
      ∀ token ∈ (ofSegments line row).tokens, P token.kind token.lexeme.toList := by
    intro row
    induction row with
    | nil => simp [ofSegments]
    | cons segment rest ih =>
        intro line hrow token htoken
        rw [List.forall_mem_cons] at hrow
        cases segment with
        | word kind text =>
            rcases List.mem_cons.mp htoken with rfl | htoken
            · simpa using hrow.1 kind text rfl
            · exact ih _ hrow.2 token htoken
        | _ => exact ih _ hrow.2 token htoken
  exact htokens _ 1 (hsegments source.toList)

/-- The words of every source are lexemes. -/
theorem Lexed.ofSource_lexeme (source : String) :
    ∀ token ∈ (ofSource source).tokens, Lexeme token.kind token.lexeme.toList := by
  refine ofSource_forall (P := Lexeme) (fun c rest kind text hcut => ?_) source
  have hfits := Segment.first_fits c rest
  rw [hcut] at hfits
  cases hfits with
  | word h => exact h

/-! ### What lexemes are spelled like -/

/-- What trees have besides names, and how it is spelled. -/
def spellings : List (String × TokenKind) :=
  [("!", .bang), ("-", .minus), (",", .comma), ("==", .equalEqual), (">", .greater),
    (">=", .greaterEqual), ("<", .less), ("<=", .lessEqual), ("+", .plus), ("/", .slash),
    ("*", .star), (")", .rightParen)] ++ keywords

section Lexemes

variable {kind : TokenKind} {text : List Char}

/-- A word of letters has the kind that it is spelled like. -/
theorem Lexeme.ofWord_eq (h : Lexeme kind text) (hword : kind.isWord = true) :
    TokenKind.ofWord (String.ofList text) = kind := by
  have hpunctuation : ∀ entry ∈ Segment.punctuation, entry.2.isWord = false := by decide
  have hcomparison : ∀ entry ∈ Segment.comparisons,
      entry.2.1.isWord = false ∧ entry.2.2.isWord = false := by decide
  cases h with
  | punctuation hentry => exact absurd hword (by simp [hpunctuation _ hentry])
  | alone hentry | withEqual hentry => exact absurd hword (by simp [hcomparison _ hentry])
  | name => rfl
  | slash | whole | fraction | string => cases hword

theorem Lexeme.eq_spelling (h : Lexeme kind text) {spelling : String × TokenKind}
    (hspelling : spelling ∈ spellings) (hkind : kind = spelling.2) :
    text = spelling.1.toList := by
  have hpunctuation : ∀ entry ∈ Segment.punctuation, ∀ spelling ∈ spellings,
      entry.2 = spelling.2 → [entry.1] = spelling.1.toList := by decide
  have hcomparison : ∀ entry ∈ Segment.comparisons, ∀ spelling ∈ spellings,
      (entry.2.1 = spelling.2 → [entry.1] = spelling.1.toList) ∧
        (entry.2.2 = spelling.2 → [entry.1, '='] = spelling.1.toList) := by decide
  have hkeyword : ∀ entry ∈ keywords, ∀ spelling ∈ spellings,
      entry.2 = spelling.2 → entry.1 = spelling.1 := by decide
  have hother : ∀ spelling ∈ spellings, spelling.2 ≠ .identifier ∧ spelling.2 ≠ .number ∧
      spelling.2 ≠ .string ∧ (.slash = spelling.2 → ['/'] = spelling.1.toList) := by decide
  obtain ⟨hidentifier, hnumber, hstring, hslash⟩ := hother spelling hspelling
  cases h with
  | punctuation hentry => exact hpunctuation _ hentry spelling hspelling hkind
  | slash => exact hslash hkind
  | alone hentry => exact (hcomparison _ hentry spelling hspelling).1 hkind
  | withEqual hentry => exact (hcomparison _ hentry spelling hspelling).2 hkind
  | name =>
      have hword := TokenKind.eq_of_ofWord hkind hidentifier
      rw [← hkeyword _ hword spelling hspelling rfl, String.toList_ofList]
  | whole | fraction => exact absurd hkind.symm hnumber
  | string => exact absurd hkind.symm hstring

theorem isWordPart_of_isWordStart {c : Char} (h : Segment.isWordStart c = true) :
    Segment.isWordPart c = true := by
  simp only [Segment.isWordStart, Bool.or_eq_true] at h
  simp only [Segment.isWordPart, Char.isAlphanum, Bool.or_eq_true]
  exact h.imp .inl id

/-- What a name is spelled like. -/
structure IsIdentifier (text : List Char) : Prop where
  start : ∃ c ∈ text, Segment.isWordStart c = true
  letters : ∀ c ∈ text, Segment.isWordPart c = true
  other : TokenKind.ofWord (String.ofList text) = .identifier

theorem Lexeme.isIdentifier (h : Lexeme kind text) (hkind : kind = .identifier) :
    IsIdentifier text := by
  have hpunctuation : ∀ entry ∈ Segment.punctuation, entry.2 ≠ .identifier := by decide
  have hcomparison : ∀ entry ∈ Segment.comparisons,
      entry.2.1 ≠ .identifier ∧ entry.2.2 ≠ .identifier := by decide
  cases h with
  | punctuation hentry => exact absurd hkind (hpunctuation _ hentry)
  | alone hentry => exact absurd hkind (hcomparison _ hentry).1
  | withEqual hentry => exact absurd hkind (hcomparison _ hentry).2
  | name hstart hmore =>
      exact ⟨⟨_, List.mem_cons_self, hstart⟩,
        List.forall_mem_cons.mpr ⟨isWordPart_of_isWordStart hstart, hmore⟩, hkind⟩
  | slash | whole | fraction | string => cases hkind

/-- No name is spelled like anything else. -/
theorem IsIdentifier.lookup (h : IsIdentifier text) :
    spellings.lookup (String.ofList text) = none := by
  have hother : ∀ spelling ∈ spellings, spelling.1.toList.any Segment.isWordStart = true →
      TokenKind.ofWord spelling.1 ≠ .identifier := by decide
  rw [List.lookup_eq_none_iff]
  rintro spelling hspelling
  by_contra heq
  obtain rfl : text = spelling.1.toList := by
    rw [← show String.ofList text = spelling.1 by simpa using heq, String.toList_ofList]
  refine hother spelling hspelling (List.any_eq_true.mpr h.start) ?_
  simpa using h.other

end Lexemes

/-- The words of every source are spelled as their kinds are. -/
theorem Lexed.ofSource_spelled (source : String) :
    ∀ token ∈ (ofSource source).tokens, token.Spelled := by
  intro token htoken hword
  have hkind := (ofSource_lexeme source token htoken).ofWord_eq hword
  rwa [String.ofList_toList] at hkind

end Lox
