/-
The bits of doubles.

A double is its sign, its exponent and its fraction, so a finite one is known by its magnitude
and its sign.
-/
import Lox.Proofs.Decimal.Intervals

namespace Lox.Decimal

variable {x y : Float}

/-- The fields of a double, in units of what they count. -/
theorem bits_fields (x : Float) : ∃ sign biased fraction : ℕ,
    x.toBits.toNat = sign * 2 ^ 63 + biased * 2 ^ 52 + fraction ∧
      sign < 2 ∧ biased < 2 ^ 11 ∧ fraction < 2 ^ 52 ∧
      isNegative x = decide (sign = 1) ∧
      shape x = if biased = 2 ^ 11 - 1 then (if fraction = 0 then .infinite else .notANumber)
        else if biased = 0 then .finite ⟨fraction, -1074, false⟩
        else .finite ⟨fraction + 2 ^ 52, (biased : ℤ) - 1075, fraction = 0 && biased > 1⟩ := by
  have hlt : x.toBits.toNat < 2 ^ 64 := x.toBits.toNat_lt
  refine ⟨x.toBits.toNat / 2 ^ 63, x.toBits.toNat / 2 ^ 52 % 2 ^ 11, x.toBits.toNat % 2 ^ 52,
    by omega, by omega, by omega, by omega, rfl, rfl⟩

/-- Doubles with the same bits are the same. -/
theorem eq_of_toBits (h : x.toBits.toNat = y.toBits.toNat) : x = y := by
  have hbits : x.toBits = y.toBits := UInt64.toNat_inj.mp h
  obtain ⟨⟨bits, valid⟩⟩ := x
  obtain ⟨⟨bits', valid'⟩⟩ := y
  obtain rfl : bits = bits' := hbits
  rfl

theorem formed_of_shape {b : Binary} (h : shape x = .finite b) : b.Formed := by
  obtain ⟨sign, biased, fraction, -, -, hbiased, hfraction, -, hshape⟩ := bits_fields x
  rw [h] at hshape
  split at hshape
  · split at hshape <;> cases hshape
  · split at hshape
    · obtain rfl := Shape.finite.inj hshape
      exact ⟨by dsimp only; omega, by norm_num, by norm_num, fun habove => by norm_num at habove,
        by simp⟩
    · obtain rfl := Shape.finite.inj hshape
      refine ⟨by dsimp only; omega, by dsimp only; omega, by dsimp only; omega,
        fun _ => by dsimp only; omega, ?_⟩
      simp only [Bool.and_eq_true, decide_eq_true_eq]
      omega

/-- A finite double is known by its magnitude and its sign. -/
theorem eq_of_shape {b : Binary} (hx : shape x = .finite b) (hy : shape y = .finite b)
    (hsign : isNegative x = isNegative y) : x = y := by
  obtain ⟨sign, biased, fraction, hbits, hlt, -, hfraction, hnegative, hshape⟩ := bits_fields x
  obtain ⟨sign', biased', fraction', hbits', hlt', -, hfraction', hnegative', hshape'⟩ :=
    bits_fields y
  have hsame : sign = sign' := by
    rw [hnegative, hnegative', decide_eq_decide] at hsign
    omega
  have hmagnitude : biased = biased' ∧ fraction = fraction' := by
    rw [hx] at hshape
    rw [hy] at hshape'
    split at hshape
    · split at hshape <;> cases hshape
    · split at hshape'
      · split at hshape' <;> cases hshape'
      · obtain rfl | hzero := eq_or_ne biased 0
        · rw [if_pos rfl] at hshape
          obtain rfl := Shape.finite.inj hshape
          split at hshape'
          · have hparts := Binary.mk.inj (Shape.finite.inj hshape')
            omega
          · have hparts := Binary.mk.inj (Shape.finite.inj hshape')
            omega
        · rw [if_neg hzero] at hshape
          obtain rfl := Shape.finite.inj hshape
          split at hshape'
          · have hparts := Binary.mk.inj (Shape.finite.inj hshape')
            omega
          · have hparts := Binary.mk.inj (Shape.finite.inj hshape')
            omega
  refine eq_of_toBits ?_
  rw [hbits, hbits', hsame, hmagnitude.1, hmagnitude.2]

end Lox.Decimal
