/-
The numbers that round to a double.

Around each double lies an interval of numbers that round to it.  Its ends are half way to
the next doubles, so neighbouring intervals meet at their ends; and there, where a tie is
decided, the number goes to the double whose mantissa is even.  Of two neighbours one has an
odd mantissa, so no number is in two intervals (`Rounds.unique`).
-/
import Mathlib.Algebra.Order.Field.Rat
import Mathlib.Algebra.Order.Field.Power
import Mathlib.Tactic.Linarith
import Mathlib.Tactic.NormNum
import Lox.Decimal.Shortest

namespace Lox.Decimal

/-- What the bits of a finite double can say of its magnitude. -/
structure Binary.Formed (x : Binary) : Prop where
  small : x.mantissa < 2 ^ 53
  least : -1074 ≤ x.exponent
  most : x.exponent ≤ 971
  /-- Only with the least exponent there are fewer bits. -/
  full : -1074 < x.exponent → 2 ^ 52 ≤ x.mantissa
  /-- The next smaller double is nearer at the powers of two above those. -/
  dense : x.denseBelow = true ↔ -1074 < x.exponent ∧ x.mantissa = 2 ^ 52

namespace Binary

/-- A quarter of the step from a double to the next one. -/
def quarter (x : Binary) : ℚ :=
  2 ^ (x.exponent - 2)

/-- Half way to the next smaller double. -/
def low (x : Binary) : ℚ :=
  (4 * x.mantissa - (if x.denseBelow then 1 else 2)) * x.quarter

/-- Half way to the next larger double. -/
def high (x : Binary) : ℚ :=
  (4 * x.mantissa + 2) * x.quarter

/-- A number rounds to a double: ties go to where the mantissa is even. -/
structure Rounds (x : Binary) (v : ℚ) : Prop where
  low : x.low ≤ v
  high : v ≤ x.high
  strict : x.mantissa % 2 = 1 → x.low < v ∧ v < x.high

variable {x y : Binary} {v : ℚ}

theorem quarter_pos (x : Binary) : 0 < x.quarter :=
  zpow_pos (by norm_num) _

/-! ### One double after the other -/

/-- With one exponent, the interval of the larger mantissa is above. -/
theorem high_le_low_of_mantissa (hx : x.Formed) (hy : y.Formed)
    (hexponent : x.exponent = y.exponent) (hmantissa : x.mantissa < y.mantissa) :
    x.high ≤ y.low ∧ (x.high = y.low → x.mantissa % 2 = 1 ∨ y.mantissa % 2 = 1) := by
  have hsparse : y.denseBelow = false := by
    by_contra hdense
    obtain ⟨habove, hpower⟩ := hy.dense.mp (by simpa using hdense)
    have hfull := hx.full (hexponent ▸ habove)
    omega
  have hquarter : x.quarter = y.quarter := by rw [quarter, quarter, hexponent]
  have hpos := y.quarter_pos
  have hnext : (x.mantissa : ℚ) + 1 ≤ y.mantissa := by exact_mod_cast hmantissa
  rw [high, low, hsparse, hquarter, if_neg Bool.false_ne_true]
  refine ⟨mul_le_mul_of_nonneg_right (by linarith) hpos.le, fun heq => ?_⟩
  have hends := mul_right_cancel₀ hpos.ne' heq
  have hsuccessor : (x.mantissa : ℚ) + 1 = y.mantissa := by linarith
  have hnat : x.mantissa + 1 = y.mantissa := by exact_mod_cast hsuccessor
  omega

/-- The interval of the larger exponent is above. -/
theorem high_le_low_of_exponent (hx : x.Formed) (hy : y.Formed)
    (hexponent : x.exponent < y.exponent) :
    x.high ≤ y.low ∧ (x.high = y.low → x.mantissa % 2 = 1 ∨ y.mantissa % 2 = 1) := by
  have habove : -1074 < y.exponent := lt_of_le_of_lt hx.least hexponent
  have hpos := x.quarter_pos
  -- A step of the larger exponent is at least two of the smaller one.
  have hdouble : 2 * x.quarter ≤ y.quarter := by
    have hpower : 2 * x.quarter = 2 ^ (x.exponent - 2 + 1) := by
      rw [quarter, zpow_add_one₀ (by norm_num), mul_comm]
    rw [hpower, quarter]
    exact zpow_le_zpow_right₀ (by norm_num) (by omega)
  have hlow : (2 ^ 54 - 1) * y.quarter ≤ y.low := by
    refine mul_le_mul_of_nonneg_right ?_ y.quarter_pos.le
    by_cases hdense : y.denseBelow = true
    · have hpower : (y.mantissa : ℚ) = 2 ^ 52 := by exact_mod_cast (hy.dense.mp hdense).2
      rw [if_pos hdense, hpower]
      norm_num
    · have hnext : 2 ^ 52 < y.mantissa := lt_of_le_of_ne (hy.full habove) fun heq =>
        hdense (hy.dense.mpr ⟨habove, heq.symm⟩)
      have hcast : (2 : ℚ) ^ 52 + 1 ≤ y.mantissa := by exact_mod_cast hnext
      rw [if_neg hdense]
      linarith
  have hhigh : x.high ≤ (2 ^ 55 - 2) * x.quarter := by
    have hcast : (x.mantissa : ℚ) + 1 ≤ 2 ^ 53 := by exact_mod_cast hx.small
    exact mul_le_mul_of_nonneg_right (by linarith) hpos.le
  have hmiddle : (2 ^ 55 - 2) * x.quarter ≤ (2 ^ 54 - 1) * y.quarter := by
    linarith
  refine ⟨hhigh.trans (hmiddle.trans hlow), fun heq => .inl ?_⟩
  have hends : x.high = (2 ^ 55 - 2) * x.quarter :=
    hhigh.antisymm (hmiddle.trans (hlow.trans heq.ge))
  have hmost := mul_right_cancel₀ hpos.ne' hends
  have hlast : (x.mantissa : ℚ) + 1 = 2 ^ 53 := by linarith
  have hnat : x.mantissa + 1 = 2 ^ 53 := by exact_mod_cast hlast
  omega

/-! ### No number in two intervals -/

/-- No number rounds to two doubles of which the interval of one is above that of the other. -/
theorem Rounds.not_above (h : x.Rounds v) (h' : y.Rounds v)
    (hapart : x.high ≤ y.low ∧ (x.high = y.low → x.mantissa % 2 = 1 ∨ y.mantissa % 2 = 1)) :
    False := by
  have heq : x.high = y.low := hapart.1.antisymm (h'.low.trans h.high)
  rcases hapart.2 heq with hodd | hodd
  · exact absurd (h'.low.trans_lt (h.strict hodd).2) (not_lt_of_ge hapart.1)
  · exact absurd ((h'.strict hodd).1.trans_le h.high) (not_lt_of_ge hapart.1)

/-- **A number rounds to one double only.** -/
theorem Rounds.unique (hx : x.Formed) (hy : y.Formed) (h : x.Rounds v) (h' : y.Rounds v) :
    x = y := by
  rcases lt_trichotomy x.exponent y.exponent with hexponent | hexponent | hexponent
  · exact (h.not_above h' (high_le_low_of_exponent hx hy hexponent)).elim
  · rcases lt_trichotomy x.mantissa y.mantissa with hmantissa | hmantissa | hmantissa
    · exact (h.not_above h' (high_le_low_of_mantissa hx hy hexponent hmantissa)).elim
    · have hdense : x.denseBelow = y.denseBelow := by
        rw [Bool.eq_iff_iff, hx.dense, hy.dense, hexponent, hmantissa]
      cases x
      cases y
      simp_all
    · exact (h'.not_above h (high_le_low_of_mantissa hy hx hexponent.symm hmantissa)).elim
  · exact (h'.not_above h (high_le_low_of_exponent hy hx hexponent)).elim

end Binary

end Lox.Decimal
