/-
What is read is a number.

A decimal rounds to a double or is too large for one; that there is no number at all comes
only of operations that have no result, and reading does none of these.
-/
import Mathlib
import Lox.Decimal.Reading
import Lox.Decimal.Shortest

namespace Lox.Decimal

open Float.Model Float.Model.UnpackedFloat

/-! ### Packing and unpacking -/

theorem toNat_unpackExponent (b : BitVec 64) :
    (@unpackExponent .binary64 b).toNat = b.toNat / 2 ^ 52 % 2 ^ 11 := by
  simp [unpackExponent, Nat.shiftRight_eq_div_pow]

theorem toNat_unpackMantissa (b : BitVec 64) :
    (@unpackMantissa .binary64 b).toNat = b.toNat % 2 ^ 52 := by
  simp [unpackMantissa]

/-- The bits are those of no number. -/
def IsNone (b : BitVec 64) : Prop :=
  @unpackExponent .binary64 b = -1#11 ∧ @unpackMantissa .binary64 b ≠ 0#52

/-- A number is not packed like what is none. -/
theorem not_isNone_pack {f : UnpackedFloat} (h : f ≠ .notANumber) :
    ¬IsNone (UnpackedFloat.pack .binary64 f) := by
  rintro ⟨hexponent, hmantissa⟩
  cases f with
  | notANumber => exact h rfl
  | infinity sign => exact hmantissa unpackMantissa_packComponents
  | zero sign =>
      rw [UnpackedFloat.pack, packedZero, unpackExponent_packComponents] at hexponent
      exact absurd hexponent (by decide)
  | finite sign m e hm =>
      rw [UnpackedFloat.pack] at hexponent hmantissa
      dsimp only at hexponent hmantissa
      split at hexponent
      · rename_i hlarge
        rw [if_pos hlarge] at hmantissa
        exact hmantissa unpackMantissa_packComponents
      · rename_i hsmall
        split at hexponent
        · rw [unpackExponent_packComponents] at hexponent
          have hvalue := congrArg BitVec.toNat hexponent
          rw [BitVec.toNat_ofNat, Nat.mod_eq_of_lt (by omega)] at hvalue
          have hones : (-1#11).toNat = 2 ^ 11 - 1 := rfl
          omega
        · rw [unpackExponent_packComponents] at hexponent
          exact absurd hexponent (by decide)

theorem isNone_of_unpack {b : BitVec 64} (h : UnpackedFloat.unpack .binary64 b = .notANumber) :
    IsNone b := by
  unfold UnpackedFloat.unpack at h
  dsimp only at h
  split at h
  · rename_i hexponent
    split at h
    · cases h
    · rename_i hmantissa
      exact ⟨hexponent, hmantissa⟩
  · split at h
    · split at h <;> cases h
    · cases h

theorem isNone_of_shape {x : Float} (h : shape x = .notANumber) : IsNone x.toBits.toBitVec := by
  unfold shape at h
  dsimp only at h
  split at h
  · rename_i hexponent
    split at h
    · cases h
    · rename_i hmantissa
      refine ⟨BitVec.eq_of_toNat_eq ?_, fun hzero => hmantissa ?_⟩
      · rw [toNat_unpackExponent]
        exact hexponent
      · have hvalue := congrArg BitVec.toNat hzero
        rwa [toNat_unpackMantissa] at hvalue
  · split at h <;> cases h

/-! ### Operations -/

/-- Rounding comes to a number. -/
theorem roundWithAccuracy_ne (sign : Sign) (m : Nat) (e : Int) (accuracy : Accuracy) :
    roundWithAccuracy .binary64 sign m e accuracy ≠ .notANumber := by
  intro h
  unfold roundWithAccuracy at h
  dsimp only at h
  split at h <;> cases h

theorem ofNat_ne (n : Nat) : UnpackedFloat.ofNat .binary64 n ≠ .notANumber := by
  intro h
  unfold UnpackedFloat.ofNat UnpackedFloat.ofInt UnpackedFloat.normalize at h
  split at h
  · exact roundWithAccuracy_ne _ _ _ _ h
  · cases h
  · exact roundWithAccuracy_ne _ _ _ _ h

/-- Finite, and not zero. -/
def isProper : UnpackedFloat → Bool
  | .finite _ _ _ _ => true
  | _ => false

theorem div_ne {f g : UnpackedFloat} (hf : f ≠ .notANumber) (hg : isProper g = true) :
    UnpackedFloat.div .binary64 f g ≠ .notANumber := by
  intro h
  cases g with
  | finite sign m e hm =>
      cases f with
      | notANumber => exact hf rfl
      | infinity _ => cases h
      | zero _ => cases h
      | finite _ _ _ _ => exact roundWithAccuracy_ne _ _ _ _ h
  | _ => cases hg

theorem ofScientific_ne (m : Nat) (e : Int) :
    UnpackedFloat.ofScientific .binary64 m e ≠ .notANumber := by
  intro h
  unfold UnpackedFloat.ofScientific at h
  split at h
  · cases h
  · split at h
    · cases h
    · split at h
      · cases h
      · split at h
        · exact roundWithAccuracy_ne _ _ _ _ h
        · exact roundWithAccuracy_ne _ _ _ _ h

theorem toBitVec_pack (f : UnpackedFloat) :
    (Float.ofModel (Float.Model.pack f)).toBits.toBitVec = UnpackedFloat.pack .binary64 f :=
  rfl

theorem shape_pack_ne {f : UnpackedFloat} (h : f ≠ .notANumber) :
    shape (.ofModel (Float.Model.pack f)) ≠ .notANumber := by
  intro hshape
  have hnone := isNone_of_shape hshape
  rw [toBitVec_pack] at hnone
  exact not_isNone_pack h hnone

theorem unpack_pack_ne {f : UnpackedFloat} (h : f ≠ .notANumber) :
    (Float.Model.pack f).unpack ≠ .notANumber :=
  fun hunpack => not_isNone_pack h (isNone_of_unpack hunpack)

/-- The powers of ten that short decimals are divided by. -/
theorem isProper_power : Float.exactlyRepresentablePowersOfTen.all
    (fun power => isProper power.toModel.unpack) = true := by
  decide +kernel

/-- **What is read is a number, if perhaps an infinite one.** -/
theorem shape_read (text : List Char) : shape (read text) ≠ .notANumber := by
  unfold read
  dsimp only
  unfold Float.ofScientific
  split
  · dsimp only
    rw [if_pos rfl]
    refine shape_pack_ne (div_ne (unpack_pack_ne (ofNat_ne _)) ?_)
    exact Array.all_eq_true_iff_forall_mem.mp isProper_power _ (Array.getElem_mem _)
  · exact shape_pack_ne (ofScientific_ne _ _)

end Lox.Decimal
