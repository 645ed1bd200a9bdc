/-
What a number that is written out in full denotes.

Zeros in front of the digits and behind them only place the point, so what is written of a
magnitude denotes it, whichever digits it was given by.  Two magnitudes with one text are
therefore one number.
-/
import Mathlib.Algebra.Order.Field.Rat
import Mathlib.Algebra.Order.Field.Power
import Mathlib.Data.List.TakeWhile
import Mathlib.Tactic.FieldSimp
import Mathlib.Tactic.Ring
import Lox.Decimal.Layout
import Lox.Decimal.Reading

namespace Lox.Decimal

/-- The number that a magnitude is. -/
def Magnitude.value (x : Magnitude) : ℚ :=
  x.digits * 10 ^ x.exponent

/-- The number that digits with at most one point among them denote. -/
def valueOf (text : List Char) : ℚ :=
  let fraction := (text.dropWhile (· ≠ '.')).tail
  natOfDigits (text.takeWhile (· ≠ '.') ++ fraction) / 10 ^ fraction.length

/-! ### Digits -/

theorem natOfDigits_digitsOf (n : Nat) : natOfDigits (digitsOf n) = n :=
  Nat.ofDigitChars_ten_toDigits

theorem natOfDigits_zeros_append (n : Nat) (digits : List Char) :
    natOfDigits (List.replicate n '0' ++ digits) = natOfDigits digits := by
  have hzeros : natOfDigits (List.replicate n '0') = 0 := by
    show Nat.ofDigitChars 10 (List.replicate n '0') 0 = 0
    rw [Nat.ofDigitChars_replicate_zero, Nat.mul_zero]
  rw [natOfDigits_append, hzeros]
  rfl

theorem natOfDigits_append_zeros (n : Nat) (digits : List Char) :
    natOfDigits (digits ++ List.replicate n '0') = 10 ^ n * natOfDigits digits := by
  rw [natOfDigits_append]
  exact Nat.ofDigitChars_replicate_zero

theorem isDigit_of_mem_digitsOf {n : Nat} {c : Char} (h : c ∈ digitsOf n) : c.isDigit = true :=
  Nat.isDigit_of_mem_toDigits (by decide) (by decide) h

theorem isDigit_of_mem_zeros {n : Nat} {c : Char} (h : c ∈ List.replicate n '0') :
    c.isDigit = true := by
  rw [List.eq_of_mem_replicate h]
  decide

/-! ### The parts of a magnitude -/

section Parts

variable (x : Magnitude)

theorem isDigit_parts : (∀ c ∈ x.parts.1, c.isDigit = true) ∧
    ∀ c ∈ x.parts.2, c.isDigit = true := by
  unfold Magnitude.parts
  dsimp only
  split
  · refine ⟨List.forall_mem_singleton.mpr (by decide), fun c hc => ?_⟩
    rcases List.mem_append.mp hc with hc | hc
    · exact isDigit_of_mem_zeros hc
    · exact isDigit_of_mem_digitsOf hc
  · have hdigits : ∀ c ∈ digitsOf x.digits ++ List.replicate x.exponent.toNat '0',
        c.isDigit = true := by
      intro c hc
      rcases List.mem_append.mp hc with hc | hc
      · exact isDigit_of_mem_digitsOf hc
      · exact isDigit_of_mem_zeros hc
    exact ⟨fun c hc => hdigits c (List.mem_of_mem_take hc),
      fun c hc => hdigits c (List.mem_of_mem_drop hc)⟩

/-- There is always a digit in front of the point. -/
theorem parts_ne_nil : x.parts.1 ≠ [] := by
  unfold Magnitude.parts
  dsimp only
  split
  · simp
  · rename_i hplaces
    have hlength : 0 < (digitsOf x.digits ++ List.replicate x.exponent.toNat '0').length
        - (-x.exponent).toNat := by
      rw [List.length_append]
      omega
    rw [← List.length_pos_iff, List.length_take]
    omega

theorem length_fraction : x.parts.2.length = (-x.exponent).toNat := by
  unfold Magnitude.parts
  dsimp only
  split
  · rw [List.length_append, List.length_replicate]
    omega
  · rw [List.length_drop, List.length_append]
    omega

/-- The point apart, the parts are the digits with zeros that do not matter. -/
theorem natOfDigits_parts :
    natOfDigits (x.parts.1 ++ x.parts.2) = 10 ^ x.exponent.toNat * x.digits := by
  unfold Magnitude.parts
  dsimp only
  split
  · rename_i hplaces
    have hpos : 0 < (digitsOf x.digits).length := Nat.length_toDigits_pos
    have hexponent : x.exponent.toNat = 0 := by omega
    rw [← List.append_assoc, show ['0'] = List.replicate 1 '0' from rfl,
      List.replicate_append_replicate, natOfDigits_zeros_append, natOfDigits_digitsOf, hexponent,
      pow_zero, one_mul]
  · rw [List.take_append_drop, natOfDigits_append_zeros, natOfDigits_digitsOf]

/-! ### The text of a magnitude -/

theorem ne_point_of_isDigit {c : Char} (h : c.isDigit = true) : c ≠ '.' := by
  rintro rfl
  exact absurd h (by decide)

/-- A magnitude written out in full is a row of digits, or two with a point in between. -/
theorem inFull_cases :
    (x.parts.2 = [] ∧ x.inFull false = x.parts.1) ∨
      x.inFull false = x.parts.1 ++ '.' :: x.parts.2 := by
  unfold Magnitude.inFull
  dsimp only
  split
  · rename_i hfraction
    exact .inl ⟨hfraction, rfl⟩
  · exact .inr rfl

/-- The text starts with a digit, and there are nothing but digits and a point in it. -/
theorem inFull_digits : (∃ c rest, x.inFull false = c :: rest ∧ c.isDigit = true) ∧
    ∀ c ∈ x.inFull false, c.isDigit = true ∨ c = '.' := by
  obtain ⟨hwhole, hfraction⟩ := isDigit_parts x
  obtain ⟨first, more, hparts⟩ := List.exists_cons_of_ne_nil (parts_ne_nil x)
  have hfirst : first.isDigit = true := hwhole first (by rw [hparts]; exact List.mem_cons_self)
  rcases inFull_cases x with ⟨-, htext⟩ | htext
  · rw [htext]
    exact ⟨⟨first, more, hparts, hfirst⟩, fun c hc => .inl (hwhole c hc)⟩
  · rw [htext]
    refine ⟨⟨first, more ++ '.' :: x.parts.2, by rw [hparts]; rfl, hfirst⟩, fun c hc => ?_⟩
    rcases List.mem_append.mp hc with hc | hc
    · exact .inl (hwhole c hc)
    · rcases List.mem_cons.mp hc with rfl | hc
      · exact .inr rfl
      · exact .inl (hfraction c hc)

/-- The text of a magnitude denotes it. -/
theorem valueOf_inFull : valueOf (x.inFull false) = x.value := by
  have hpoint : ∀ c ∈ x.parts.1, decide (c ≠ '.') = true := fun c hc =>
    decide_eq_true (ne_point_of_isDigit ((isDigit_parts x).1 c hc))
  have hcut : (x.inFull false).takeWhile (· ≠ '.') = x.parts.1 ∧
      ((x.inFull false).dropWhile (· ≠ '.')).tail = x.parts.2 := by
    rcases inFull_cases x with ⟨hfraction, htext⟩ | htext
    · rw [htext, List.takeWhile_eq_self_iff.mpr hpoint, List.dropWhile_eq_nil_iff.mpr hpoint,
        hfraction]
      exact ⟨rfl, rfl⟩
    · rw [htext, List.takeWhile_append_of_pos hpoint, List.dropWhile_append_of_pos hpoint]
      simp
  have hexponent : (10 : ℚ) ^ x.exponent.toNat / 10 ^ (-x.exponent).toNat = 10 ^ x.exponent := by
    rw [← zpow_natCast, ← zpow_natCast, ← zpow_sub₀ (by norm_num)]
    congr 1
    omega
  unfold valueOf
  dsimp only
  rw [hcut.1, hcut.2, natOfDigits_parts, length_fraction, Magnitude.value, ← hexponent]
  push_cast
  ring

end Parts

/-- Magnitudes that are written alike are one number. -/
theorem Magnitude.value_eq_of_inFull {x y : Magnitude} (h : x.inFull false = y.inFull false) :
    x.value = y.value := by
  rw [← valueOf_inFull, h, valueOf_inFull]

end Lox.Decimal
