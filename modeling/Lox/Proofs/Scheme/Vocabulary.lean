/-
The words of a source, as words of Scheme.

Names are made of letters, digits and underscores, and operators are spelled in one way
each.  So whatever of a source is copied into a Scheme program is the text of a symbol,
and an operator never is one of Scheme's own binding forms.
-/
import Lox.Decimal.Layout
import Lox.Proofs.Grammar.Words
import Lox.Proofs.Scheme.Reading
import Lox.Proofs.Source.Spelling

namespace Lox.Scheme

open Grammar.Derives

/-- The spelling of a name. -/
structure IsName (text : String) : Prop where
  nonempty : text.toList ≠ []
  letters : ∀ c ∈ text.toList, Segment.isWordPart c = true

/-- The operators of the forms that binary operators become. -/
def operatorNames : List String :=
  ["lox-equal?", "begin", "add", "lox-div", "-", "*", ">", ">=", "<", "<="]

/-- The operators of the forms that `and` and `or` become. -/
def connectiveNames : List String :=
  ["and", "or"]

/-- What the tokens in a tree have to be like so that it can be written down. -/
def vocabulary : Vocabulary
  | .name, token => IsName token.lexeme
  | .operator, token => operatorName token ∈ operatorNames
  | .connective, token => token.lexeme ∈ connectiveNames
  | _, _ => True

/-- The words of every source are like that. -/
theorem allows_ofSource (source : String) :
    Allows vocabulary (Lexed.ofSource source).tokens := by
  refine ⟨fun token htoken role hrole => ?_, fun token _ _ => ⟨trivial, ?_⟩⟩
  · have hlexeme := Lexed.ofSource_lexeme source token htoken
    have hspelled {text : String} {kind : TokenKind} (hspelling : (text, kind) ∈ spellings)
        (hkind : token.kind = kind) : token.lexeme = text :=
      String.toList_inj.mp (hlexeme.eq_spelling hspelling hkind)
    cases role with
    | name =>
        have hname := hlexeme.isIdentifier (List.mem_singleton.mp hrole)
        obtain ⟨c, hc, -⟩ := hname.start
        exact ⟨List.ne_nil_of_mem hc, hname.letters⟩
    | connective =>
        show token.lexeme ∈ connectiveNames
        have hkinds : token.kind = .kwAnd ∨ token.kind = .kwOr := by
          simpa [Role.kinds] using hrole
        rcases hkinds with h | h
        · rw [hspelled (show ("and", TokenKind.kwAnd) ∈ spellings by decide) h]; decide
        · rw [hspelled (show ("or", TokenKind.kwOr) ∈ spellings by decide) h]; decide
    | operator =>
        show operatorName token ∈ operatorNames
        simp only [Role.kinds, List.mem_cons, List.not_mem_nil, or_false] at hrole
        unfold operatorName
        rcases hrole with h | h | h | h | h | h | h | h | h | h <;> rw [h] <;> dsimp only
        · decide
        · decide
        · rw [hspelled (show (">", TokenKind.greater) ∈ spellings by decide) h]; decide
        · rw [hspelled (show (">=", TokenKind.greaterEqual) ∈ spellings by decide) h]; decide
        · rw [hspelled (show ("<", TokenKind.less) ∈ spellings by decide) h]; decide
        · rw [hspelled (show ("<=", TokenKind.lessEqual) ∈ spellings by decide) h]; decide
        · rw [hspelled (show ("-", TokenKind.minus) ∈ spellings by decide) h]; decide
        · decide
        · decide
        · rw [hspelled (show ("*", TokenKind.star) ∈ spellings by decide) h]; decide
    | _ => trivial
  · show "lox-equal?" ∈ operatorNames
    decide

/-! ### Symbols -/

theorem isConstituent_of_isWordPart {c : Char} (h : Segment.isWordPart c = true) :
    isConstituent c = true := by
  simp only [Segment.isWordPart, Bool.or_eq_true, decide_eq_true_eq] at h
  rcases h with h | rfl
  · simp [isConstituent, h]
  · decide

theorem IsName.isSymbol {text : String} (h : IsName text) : IsSymbol text :=
  ⟨h.nonempty, fun c hc => isConstituent_of_isWordPart (h.letters c hc)⟩

/-- The name of a variable. -/
theorem isSymbol_symbol {name : Token} (h : IsName name.lexeme) : IsSymbol (symbol name) := by
  have htext : (symbol name).toList = ['l', 'o', 'x', ':'] ++ name.lexeme.toList := by
    rw [symbol, String.toList_append]
    rfl
  refine ⟨by simp [htext], fun c hc => ?_⟩
  rw [htext] at hc
  rcases List.mem_append.mp hc with hc | hc
  · exact List.all_eq_true.mp (show ['l', 'o', 'x', ':'].all isConstituent = true by decide) c hc
  · exact h.isSymbol.constituents c hc

theorem isSymbol_operatorName {operator : Token} (h : vocabulary .operator operator) :
    IsSymbol (operatorName operator) :=
  (show ∀ text ∈ operatorNames, IsSymbol text by decide) _ h

theorem isSymbol_connective {operator : Token} (h : vocabulary .connective operator) :
    IsSymbol operator.lexeme :=
  (show ∀ text ∈ connectiveNames, IsSymbol text by decide) _ h

/-- A name needs no escapes in a string. -/
theorem IsName.escape {text : String} (h : IsName text) :
    Scheme.escape text.toList = text.toList := by
  have hletters := h.letters
  generalize text.toList = letters at hletters ⊢
  induction letters with
  | nil => rfl
  | cons c rest ih =>
      rw [List.forall_mem_cons] at hletters
      have hc : ¬(c = '\\' ∨ c = '"') := by
        rintro (rfl | rfl) <;> exact absurd hletters.1 (by decide)
      rw [Scheme.escape, if_neg (by simpa using hc), ih hletters.2]

/-! ### Numbers -/

/-- A character of a number that has digits. -/
def isNumeral (c : Char) : Bool :=
  c.isDigit || ['.', 'e', '-'].contains c

theorem isConstituent_of_isNumeral {c : Char} (h : isNumeral c = true) : isConstituent c = true := by
  simp only [isNumeral, Bool.or_eq_true] at h
  rcases h with h | h
  · simp [isConstituent, Char.isAlphanum, h]
  · exact List.all_eq_true.mp (show ['.', 'e', '-'].all isConstituent = true by decide) c
      (by simpa using h)

theorem isNumeral_digits {n : Nat} {c : Char} (h : c ∈ Decimal.digitsOf n) : isNumeral c = true := by
  simp [isNumeral, Nat.isDigit_of_mem_toDigits (by decide) (by decide) h]

theorem isNumeral_parts (x : Decimal.Magnitude) :
    (∀ c ∈ x.parts.1, isNumeral c = true) ∧ ∀ c ∈ x.parts.2, isNumeral c = true := by
  have hzeros : ∀ n, ∀ c ∈ List.replicate n '0', isNumeral c = true := by
    intro n c hc
    rw [List.eq_of_mem_replicate hc]
    decide
  have hboth : ∀ a b : List Char, (∀ c ∈ a, isNumeral c = true) →
      (∀ c ∈ b, isNumeral c = true) → ∀ c ∈ a ++ b, isNumeral c = true := by
    intro a b ha hb c hc
    rcases List.mem_append.mp hc with hc | hc
    · exact ha c hc
    · exact hb c hc
  have hdigits : ∀ c ∈ Decimal.digitsOf x.digits, isNumeral c = true :=
    fun c => isNumeral_digits
  unfold Decimal.Magnitude.parts
  dsimp only
  split
  · exact ⟨hzeros 1, hboth _ _ (hzeros _) hdigits⟩
  · have hwhole := hboth _ _ hdigits (hzeros x.exponent.toNat)
    exact ⟨fun c hc => hwhole c (List.mem_of_mem_take hc),
      fun c hc => hwhole c (List.mem_of_mem_drop hc)⟩

/-- A magnitude is written in digits, with a point or an exponent. -/
theorem isNumeral_magnitude (x : Decimal.Magnitude) :
    numberLayout.magnitude x ≠ [] ∧ ∀ c ∈ numberLayout.magnitude x, isNumeral c = true := by
  obtain ⟨hwhole, hfraction⟩ := isNumeral_parts x
  have hfull : x.inFull true ≠ [] ∧ ∀ c ∈ x.inFull true, isNumeral c = true := by
    unfold Decimal.Magnitude.inFull
    split
    rename_i whole fraction hparts
    rw [hparts] at hwhole hfraction
    split
    · refine ⟨by simp, fun c hc => ?_⟩
      rcases List.mem_append.mp hc with hc | hc
      · exact hwhole c hc
      · exact List.all_eq_true.mp (show ['.', '0'].all isNumeral = true by decide) c hc
    · refine ⟨by simp, fun c hc => ?_⟩
      rcases List.mem_append.mp hc with hc | hc
      · exact hwhole c hc
      · rcases List.mem_cons.mp hc with rfl | hc
        · decide
        · exact hfraction c hc
  have hexponent : x.withExponent ≠ [] ∧ ∀ c ∈ x.withExponent, isNumeral c = true := by
    unfold Decimal.Magnitude.withExponent
    dsimp only
    refine ⟨by simp, fun c hc => ?_⟩
    rcases List.mem_append.mp hc with hc | hc
    · have hdigits : ∀ c ∈ Decimal.digitsOf x.digits, isNumeral c = true :=
        fun c => isNumeral_digits
      split at hc
      · simp at hc
      · rename_i d heq
        exact hdigits c (heq ▸ hc)
      · rename_i d rest _ heq
        rw [heq] at hdigits
        rcases List.mem_cons.mp hc with rfl | hc
        · exact hdigits c List.mem_cons_self
        · rcases List.mem_cons.mp hc with rfl | hc
          · decide
          · exact hdigits c (List.mem_cons_of_mem d hc)
    · rcases List.mem_cons.mp hc with rfl | hc
      · decide
      · split at hc
        · rcases List.mem_cons.mp hc with rfl | hc
          · decide
          · exact isNumeral_digits hc
        · exact isNumeral_digits hc
  unfold Decimal.Layout.magnitude
  rw [show numberLayout.positional = some (-4, 16) from rfl]
  dsimp only
  split
  · exact hfull
  · exact hexponent

/-- What is written for the numbers that have no digits. -/
def specialNumbers : List String :=
  ["+nan.0", "+inf.0", "-inf.0"]

/-- A number is written with digits, or it is one of the special ones. -/
theorem number_spelled (value : Float) : numberLayout.render value ∈ specialNumbers ∨
    (numberLayout.render value).toList ≠ [] ∧
      ∀ c ∈ (numberLayout.render value).toList, isNumeral c = true := by
  unfold Decimal.Layout.render
  split
  · exact Or.inl (by decide)
  · exact Or.inl (by split <;> decide)
  · obtain ⟨hne, hall⟩ := isNumeral_magnitude (Decimal.Binary.shortest ‹_›)
    refine Or.inr ?_
    rw [String.toList_ofList]
    split
    · exact ⟨by simp, List.forall_mem_cons.mpr ⟨by decide, hall⟩⟩
    · exact ⟨hne, hall⟩

/-- A number is written without brackets, quotes and blanks. -/
theorem isSymbol_number (value : Float) : IsSymbol (numberLayout.render value) := by
  rcases number_spelled value with hspecial | ⟨hne, hall⟩
  · exact (show ∀ text ∈ specialNumbers, IsSymbol text by decide) _ hspecial
  · exact ⟨hne, fun c hc => isConstituent_of_isNumeral (hall c hc)⟩

end Lox.Scheme
