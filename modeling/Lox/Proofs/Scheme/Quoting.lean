/-
Where a string literal ends.

A reader of strings takes a backslash that stands before a backslash or a quote for that
character, and the first quote that is left for the end.  Both would go wrong if a backslash
of the text itself stood there as it is: before a quote it would hide the quote, and at the
end of the text it would hide the end of the literal.  As each gets a backslash of its own,
the backslashes of a literal come in pairs up to the character that is meant, and the reader
never pairs a backslash with what belongs to the next character.
-/
import Lox.Scheme.Literal

namespace Lox.Scheme

/-- What a backslash and the character behind it stand for; readers differ in what they take
`other` characters for. -/
def escaped (other : Char → Option Char) (c : Char) : Option Char :=
  if c = '\\' || c = '"' then some c else other c

/-- Reads the inside of a string, and leaves what stands behind the quote that ends it. -/
def readInside (other : Char → Option Char) : List Char → Option (List Char × List Char)
  | [] => none
  | [c] => if c = '"' then some ([], []) else none
  | c :: next :: rest =>
      if c = '"' then some ([], next :: rest)
      else if c = '\\' then
        (escaped other next).bind fun meant =>
          (readInside other rest).map fun (inside, behind) => (meant :: inside, behind)
      else (readInside other (next :: rest)).map fun (inside, behind) => (c :: inside, behind)

/-- Reads a string from the start of a text, and leaves the text behind it. -/
def readString (other : Char → Option Char) : List Char → Option (String × List Char)
  | [] => none
  | c :: rest =>
      if c = '"' then
        (readInside other rest).map fun (inside, behind) => (String.ofList inside, behind)
      else none

section Reading

variable {other : Char → Option Char} {c next : Char} {inside behind rest : List Char}

/-! ### One character -/

theorem readInside_quote : readInside other ('"' :: rest) = some ([], rest) := by
  cases rest <;> simp [readInside]

theorem readInside_backslash : readInside other ('\\' :: next :: rest)
    = (escaped other next).bind fun meant =>
        (readInside other rest).map fun (inside, behind) => (meant :: inside, behind) := by
  simp [readInside]

theorem readInside_plain (hquote : c ≠ '"') (hbackslash : c ≠ '\\') :
    readInside other (c :: rest)
      = (readInside other rest).map fun (inside, behind) => (c :: inside, behind) := by
  cases rest <;> simp [readInside, hquote, hbackslash]

theorem escape_cons_special (h : (c = '\\' || c = '"') = true) :
    escape (c :: rest) = '\\' :: c :: escape rest := by
  rw [escape, if_pos h]

theorem escape_cons_plain (hquote : c ≠ '"') (hbackslash : c ≠ '\\') :
    escape (c :: rest) = c :: escape rest := by
  rw [escape, if_neg (by simp [hquote, hbackslash])]

/-! ### The whole literal -/

/-- Escaped text is read as that text, up to the quote that was put behind it. -/
theorem readInside_escape (text : List Char) :
    readInside other (escape text ++ '"' :: behind) = some (text, behind) := by
  induction text with
  | nil => exact readInside_quote
  | cons c rest ih =>
      by_cases h : (c = '\\' || c = '"') = true
      · rw [escape_cons_special h, List.cons_append, List.cons_append, readInside_backslash,
          escaped, if_pos h, Option.bind_some, ih]
        rfl
      · simp only [Bool.or_eq_true, decide_eq_true_eq, not_or] at h
        rw [escape_cons_plain h.2 h.1, List.cons_append, readInside_plain h.2 h.1, ih]
        rfl

theorem toList_ofLiteral_string_append (text : String) :
    (ofLiteral (.string text)).toList ++ behind = '"' :: (escape text.toList ++ '"' :: behind) := by
  simp [ofLiteral, quote]

theorem readString_escape (text : String) :
    readString other ('"' :: (escape text.toList ++ '"' :: behind)) = some (text, behind) := by
  rw [readString, if_pos rfl, readInside_escape]
  exact congrArg (fun inside => some (inside, behind)) String.ofList_toList

/-- **String literals survive escaping.**  From the literal for a text, with anything behind it,
that text is read and just what is behind is left, whatever else the reader knows of escapes. -/
theorem readString_ofLiteral (other : Char → Option Char) (text : String) (behind : List Char) :
    readString other ((ofLiteral (.string text)).toList ++ behind) = some (text, behind) := by
  rw [toList_ofLiteral_string_append]
  exact readString_escape text

/-- A text that ends in a backslash, and one that reads like the end of a literal. -/
example : ofLiteral (.string "a\\") = "\"a\\\\\"" ∧ ofLiteral (.string "\\\"") = "\"\\\\\\\"\"" := by
  decide +kernel

end Reading

end Lox.Scheme
