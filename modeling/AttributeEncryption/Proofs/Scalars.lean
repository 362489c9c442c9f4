import AttributeEncryption.Algebra.Residue
import Mathlib.Algebra.Ring.Int.Defs
import Mathlib.Data.Int.Cast.Lemmas
import Mathlib.Data.ZMod.Defs

/-!
# Scalars as a ring

The operations on scalars are those of the ring of residues, and scalars of integers are their
casts (`Scalar.ofInt_eq_cast`).
-/

open scoped Fin.CommRing

namespace AttributeEncryption.Scalar

theorem ofNat_eq_cast (n : ℕ) : ofNat n = (n : Scalar) :=
  rfl

/-- The scalar of an integer is its residue. -/
theorem ofInt_eq_cast (n : ℤ) : ofInt n = (n : Scalar) := by
  unfold ofInt
  rw [ofNat_eq_cast]
  split_ifs with hn
  · obtain ⟨k, rfl⟩ := Int.exists_eq_neg_ofNat hn.le
    simp
  · obtain ⟨k, rfl⟩ := Int.eq_ofNat_of_zero_le (not_lt.mp hn)
    simp

theorem val_ofInt (n : ℤ) : ((ofInt n).val : ℤ) = n % groupOrder := by
  rw [ofInt_eq_cast, Fin.val_intCast, Int.toNat_of_nonneg (Int.emod_nonneg n (by decide))]

end AttributeEncryption.Scalar
