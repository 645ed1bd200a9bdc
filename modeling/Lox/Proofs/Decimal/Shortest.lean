/-
The shortest decimal reads back.

Whatever the search takes from a grid rounds to the double, for that is what it tests.  And
it does find something: the grids grow finer, and the last one that is tried has a step that
is no more than a quarter of the double's own, so that the point below the double is near
enough.  How many grids it takes to get there is a matter of comparing powers of ten with
powers of two: `10^31` is a little less than `2^103`, and `10^28` a little more than `2^93`.
-/
import Lox.Proofs.Decimal.Digits
import Lox.Proofs.Decimal.Intervals
import Mathlib.Tactic.Positivity

namespace Lox.Decimal.Binary

variable {x : Binary} {p : ℤ}

/-! ### Grids -/

/-- What makes both sides integral when a double is compared with the grid of `10^p`. -/
def scale (x : Binary) (p : ℤ) : ℚ :=
  2 ^ (2 - x.exponent).toNat * 10 ^ (-p).toNat

/-- A step of the grid, as the search has it. -/
def gridStep (x : Binary) (p : ℤ) : ℕ :=
  Nat.pow 10 p.toNat * Nat.pow 2 (2 - x.exponent).toNat

/-- A quarter of a step of the double, as the search has it. -/
def gridQuarter (x : Binary) (p : ℤ) : ℕ :=
  Nat.pow 2 (x.exponent - 2).toNat * Nat.pow 10 (-p).toNat

/-- The last point of the grid up to the double. -/
def gridBelow (x : Binary) (p : ℤ) : ℕ :=
  4 * x.mantissa * x.gridQuarter p / x.gridStep p

theorem scale_pos (x : Binary) (p : ℤ) : 0 < x.scale p := by
  unfold scale
  positivity

theorem pow_toNat {a : ℚ} (ha : a ≠ 0) (n : ℤ) : a ^ n.toNat = a ^ n * a ^ (-n).toNat := by
  rw [← zpow_natCast, ← zpow_natCast, ← zpow_add₀ ha]
  congr 1
  omega

theorem cast_gridStep (x : Binary) (p : ℤ) : (x.gridStep p : ℚ) = 10 ^ p * x.scale p := by
  unfold gridStep scale
  push_cast
  simp only [Nat.pow_eq]
  push_cast
  rw [pow_toNat (by norm_num) p]
  ring

theorem cast_gridQuarter (x : Binary) (p : ℤ) : (x.gridQuarter p : ℚ) = x.quarter * x.scale p := by
  unfold gridQuarter scale quarter
  simp only [Nat.pow_eq]
  push_cast
  rw [pow_toNat (by norm_num) (x.exponent - 2), neg_sub]
  ring

/-- A point of a grid is taken if it rounds to the double. -/
theorem covers_iff (hpos : 0 < x.mantissa) (p : ℤ) (point : ℕ) :
    x.covers (x.gridQuarter p) (point * x.gridStep p) = true ↔ x.Rounds (point * 10 ^ p) := by
  have hscale := x.scale_pos p
  have hdown : (if x.denseBelow = true then 1 else 2) ≤ 4 * x.mantissa := by
    split <;> omega
  have hlow : (((4 * x.mantissa - (if x.denseBelow = true then 1 else 2)) *
      x.gridQuarter p : ℕ) : ℚ) = x.low * x.scale p := by
    rw [Nat.cast_mul, Nat.cast_sub hdown, cast_gridQuarter, low]
    push_cast
    ring
  have hhigh : (((4 * x.mantissa + 2) * x.gridQuarter p : ℕ) : ℚ) = x.high * x.scale p := by
    rw [Nat.cast_mul, cast_gridQuarter, high]
    push_cast
    ring
  have hpoint : ((point * x.gridStep p : ℕ) : ℚ) = point * 10 ^ p * x.scale p := by
    rw [Nat.cast_mul, cast_gridStep, mul_assoc]
  unfold covers
  dsimp only
  split
  · rename_i heven
    rw [Bool.and_eq_true, decide_eq_true_eq, decide_eq_true_eq, ← Nat.cast_le (α := ℚ),
      ← Nat.cast_le (α := ℚ), hlow, hhigh, hpoint, mul_le_mul_iff_left₀ hscale,
      mul_le_mul_iff_left₀ hscale]
    exact ⟨fun h => ⟨h.1, h.2, fun hodd => by omega⟩, fun h => ⟨h.low, h.high⟩⟩
  · rename_i hodd
    rw [Bool.and_eq_true, decide_eq_true_eq, decide_eq_true_eq, ← Nat.cast_lt (α := ℚ),
      ← Nat.cast_lt (α := ℚ), hlow, hhigh, hpoint, mul_lt_mul_iff_left₀ hscale,
      mul_lt_mul_iff_left₀ hscale]
    exact ⟨fun h => ⟨h.1.le, h.2.le, fun _ => h⟩, fun h => h.strict (by omega)⟩

/-! ### Searching -/

/-- What is taken from a grid rounds to the double. -/
theorem onGrid?_rounds (hpos : 0 < x.mantissa) {hit : Magnitude} (h : x.onGrid? p = some hit) :
    x.Rounds hit.value := by
  have htaken (point : ℕ) (hcovers : x.covers (x.gridQuarter p) (point * x.gridStep p) = true) :
      x.Rounds (Magnitude.value ⟨point, p⟩) :=
    (covers_iff hpos p point).mp hcovers
  unfold onGrid? at h
  dsimp only at h
  split at h
  · rename_i hbelow habove
    split at h
    · obtain rfl := Option.some.inj h
      exact htaken _ hbelow
    · obtain rfl := Option.some.inj h
      exact htaken _ habove
  · rename_i hbelow _
    obtain rfl := Option.some.inj h
    exact htaken _ hbelow
  · rename_i _ habove
    obtain rfl := Option.some.inj h
    exact htaken _ habove
  · cases h

theorem search_rounds (hpos : 0 < x.mantissa) {tries : ℕ} {hit : Magnitude}
    (h : x.search tries p = some hit) : x.Rounds hit.value := by
  induction tries generalizing p with
  | zero => cases h
  | succ tries ih =>
      rw [search] at h
      split at h
      · rename_i found hgrid
        obtain rfl := Option.some.inj h
        exact onGrid?_rounds hpos hgrid
      · exact ih h

/-- The search finds something if one of the grids has something that it tries. -/
theorem search_isSome {tries k : ℕ} (hk : k < tries) (h : (x.onGrid? (p - k)).isSome = true) :
    (x.search tries p).isSome = true := by
  induction tries generalizing p k with
  | zero => cases hk
  | succ tries ih =>
      rw [search]
      split
      · rfl
      · rename_i hnone
        cases k with
        | zero =>
            rw [Nat.cast_zero, sub_zero, hnone] at h
            cases h
        | succ k =>
            refine ih (Nat.lt_of_succ_lt_succ hk) ?_
            rwa [Nat.cast_succ, ← sub_sub, sub_right_comm] at h

/-- On a fine grid the point below the double rounds to it. -/
theorem onGrid?_isSome (hpos : 0 < x.mantissa) (hfine : (10 : ℚ) ^ p ≤ x.quarter) :
    (x.onGrid? p).isSome = true := by
  have hscale := x.scale_pos p
  have hquarter := x.quarter_pos
  have hstep : 0 < x.gridStep p :=
    Nat.mul_pos (Nat.pow_pos (by norm_num)) (Nat.pow_pos (by norm_num))
  -- The point is at most one step of the grid below the double.
  have hbelow : (x.gridBelow p : ℚ) * 10 ^ p ≤ 4 * x.mantissa * x.quarter := by
    have hle : ((x.gridBelow p * x.gridStep p : ℕ) : ℚ) ≤ (4 * x.mantissa * x.gridQuarter p : ℕ) :=
      Nat.cast_le.mpr (Nat.div_mul_le_self _ _)
    push_cast at hle
    rw [cast_gridStep, cast_gridQuarter, ← mul_assoc, ← mul_assoc] at hle
    exact le_of_mul_le_mul_right hle hscale
  have hnear : 4 * x.mantissa * x.quarter < x.gridBelow p * 10 ^ p + 10 ^ p := by
    have hlt : ((4 * x.mantissa * x.gridQuarter p : ℕ) : ℚ)
        < ((x.gridBelow p + 1) * x.gridStep p : ℕ) :=
      Nat.cast_lt.mpr (Nat.lt_mul_of_div_lt (Nat.lt_succ_self _) hstep)
    push_cast at hlt
    rw [cast_gridStep, cast_gridQuarter, ← mul_assoc, ← mul_assoc] at hlt
    have hlt' := lt_of_mul_lt_mul_right hlt hscale.le
    linarith
  have hlow : x.low < x.gridBelow p * 10 ^ p := by
    have hdown : x.low ≤ (4 * x.mantissa - 1) * x.quarter := by
      refine mul_le_mul_of_nonneg_right ?_ hquarter.le
      split <;> linarith
    linarith
  have hhigh : (x.gridBelow p : ℚ) * 10 ^ p < x.high := by
    unfold high
    linarith
  have hcovers : x.covers (x.gridQuarter p) (x.gridBelow p * x.gridStep p) = true :=
    (covers_iff hpos p _).mpr ⟨hlow.le, hhigh.le, fun _ => ⟨hlow, hhigh⟩⟩
  unfold onGrid?
  dsimp only
  unfold gridBelow gridQuarter gridStep at hcovers
  split
  · split <;> rfl
  · rfl
  · rfl
  · rename_i hnone _
    rw [hcovers] at hnone
    cases hnone

/-! ### Powers of ten and powers of two -/

theorem ten_pow_le {n k : ℕ} (h : 103 * n ≤ 31 * k) : 10 ^ n ≤ 2 ^ k := by
  have hpower : (10 ^ n) ^ 31 ≤ (2 ^ k) ^ 31 :=
    calc (10 ^ n) ^ 31 = (10 ^ 31) ^ n := by rw [← pow_mul, ← pow_mul, mul_comm]
      _ ≤ (2 ^ 103) ^ n := Nat.pow_le_pow_left (by norm_num) n
      _ = 2 ^ (103 * n) := by rw [pow_mul]
      _ ≤ 2 ^ (31 * k) := Nat.pow_le_pow_right (by norm_num) h
      _ = (2 ^ k) ^ 31 := by rw [← pow_mul, mul_comm]
  exact (Nat.pow_le_pow_iff_left (by norm_num)).mp hpower

theorem two_pow_le {n k : ℕ} (h : 28 * k ≤ 93 * n) : 2 ^ k ≤ 10 ^ n := by
  have hpower : (2 ^ k) ^ 93 ≤ (10 ^ n) ^ 93 :=
    calc (2 ^ k) ^ 93 = (2 ^ 93) ^ k := by rw [← pow_mul, ← pow_mul, mul_comm]
      _ ≤ (10 ^ 28) ^ k := Nat.pow_le_pow_left (by norm_num) k
      _ = 10 ^ (28 * k) := by rw [pow_mul]
      _ ≤ 10 ^ (93 * n) := Nat.pow_le_pow_right (by norm_num) h
      _ = (10 ^ n) ^ 93 := by rw [← pow_mul, mul_comm]
  exact (Nat.pow_le_pow_iff_left (by norm_num)).mp hpower

/-- The same for exponents of either sign. -/
theorem ten_zpow_le {p q : ℤ} (hlarge : 103 * p ≤ 31 * q) (hsmall : 93 * p ≤ 28 * q) :
    (10 : ℚ) ^ p ≤ 2 ^ q := by
  rcases le_total 0 p with hp | hp
  · obtain ⟨n, rfl⟩ := Int.eq_ofNat_of_zero_le hp
    obtain ⟨k, rfl⟩ := Int.eq_ofNat_of_zero_le (show 0 ≤ q by omega)
    rw [zpow_natCast, zpow_natCast]
    exact_mod_cast ten_pow_le (by omega)
  · rcases le_total 0 q with hq | hq
    · exact (zpow_le_one_of_nonpos₀ (by norm_num) hp).trans (one_le_zpow₀ (by norm_num) hq)
    · obtain ⟨n, hn⟩ := Int.eq_ofNat_of_zero_le (neg_nonneg.mpr hp)
      obtain ⟨k, hk⟩ := Int.eq_ofNat_of_zero_le (neg_nonneg.mpr hq)
      rw [← neg_neg p, ← neg_neg q, hn, hk, zpow_neg, zpow_neg, zpow_natCast, zpow_natCast]
      refine inv_anti₀ (by positivity) ?_
      exact_mod_cast two_pow_le (by omega)

/-- The last of twenty grids is fine enough. -/
theorem last_grid_fine (hx : x.Formed) : (10 : ℚ) ^ (x.coarsest - (19 : ℕ)) ≤ x.quarter := by
  have hlog : x.mantissa.log2 ≤ 52 := by
    by_cases hzero : x.mantissa = 0
    · rw [hzero]
      decide
    · exact Nat.le_of_lt_succ ((Nat.log2_lt hzero).mpr hx.small)
  have hleast := hx.least
  have hmost := hx.most
  refine ten_zpow_le ?_ ?_ <;>
  · rw [coarsest, Int.fdiv_eq_ediv_of_nonneg _ (by norm_num)]
    omega

/-! ### The shortest decimal -/

/-- **The shortest decimal of a double rounds to it.** -/
theorem shortest_rounds (hx : x.Formed) : x.Rounds x.shortest.value := by
  unfold shortest
  split
  · rename_i hzero
    have hpos := x.quarter_pos
    have hvalue : Magnitude.value ⟨0, 0⟩ = 0 := by simp [Magnitude.value]
    rw [hvalue]
    refine ⟨?_, ?_, fun hodd => by omega⟩
    · refine mul_nonpos_of_nonpos_of_nonneg ?_ hpos.le
      rw [hzero]
      split <;> norm_num
    · unfold high
      positivity
  · rename_i hne
    have hpos : 0 < x.mantissa := Nat.pos_of_ne_zero hne
    obtain ⟨hit, hhit⟩ := Option.isSome_iff_exists.mp
      (search_isSome (show 19 < 20 by norm_num) (onGrid?_isSome hpos (last_grid_fine hx)))
    rw [hhit, Option.getD_some]
    exact search_rounds hpos hhit

/-- Doubles of which the shortest decimals are one number are one double. -/
theorem eq_of_shortest {y : Binary} (hx : x.Formed) (hy : y.Formed)
    (h : x.shortest.value = y.shortest.value) : x = y :=
  (shortest_rounds hx).unique hx hy (h ▸ shortest_rounds hy)

end Lox.Decimal.Binary
