import AttributeEncryption.Algebra.Residue
import AttributeEncryption.Proofs.Powers
import Mathlib.FieldTheory.Finite.Basic

/-!
# Residues modulo a prime

Residues modulo a prime are a field (`Residue.isField`). By Fermat's little theorem the power
that is taken for the inverse of a residue other than 0 is its inverse
(`Residue.inverse_mul_cancel`). An `n`-th power other than 0 has the power 1 at the exponent
`(p - 1) / n`, so computing that power can tell that a residue has no `n`-th root
(`Residue.pow_ne`).
-/

open scoped Fin.CommRing

namespace AttributeEncryption.Residue

variable {p : ℕ} [NeZero p]

/-- The inverse is a power. -/
theorem inverse_eq_pow (x : Fin p) : inverse x = x ^ (p - 2) :=
  power_eq_pow x (p - 2)

variable [Fact p.Prime]

theorem pow_sub_one {x : Fin p} (hx : x ≠ 0) : x ^ (p - 1) = 1 := by
  refine (ZMod.finEquiv p).injective ?_
  rw [map_pow, map_one, ZMod.pow_card_sub_one_eq_one (by simpa using hx)]

/-- Residues other than 0 have an inverse. -/
theorem inverse_mul_cancel {x : Fin p} (hx : x ≠ 0) : inverse x * x = 1 := by
  have hp : p - 2 + 1 = p - 1 := by
    have := (Fact.out : p.Prime).two_le
    omega
  rw [inverse_eq_pow, ← pow_succ, hp, pow_sub_one hx]

theorem isField : IsField (Fin p) where
  exists_pair_ne := (ZMod.finEquiv p).symm.injective.nontrivial.exists_pair_ne
  mul_comm := mul_comm
  mul_inv_cancel hx := ⟨_, (mul_comm _ _).trans (inverse_mul_cancel hx)⟩

/-- A residue other than 0 is no `n`-th power if its own power with `(p - 1) / n` is not 1. -/
theorem pow_ne {n : ℕ} (hn : n ∣ p - 1) {d : Fin p} (hd : d ≠ 0)
    (h : power (· * ·) 1 d ((p - 1) / n) ≠ 1) (x : Fin p) : x ^ n ≠ d := by
  rintro rfl
  have hn0 : n ≠ 0 := by
    rintro rfl
    exact h (by rw [Nat.div_zero, power_eq_pow, pow_zero])
  have hx : x ≠ 0 := by
    rintro rfl
    exact hd (zero_pow hn0)
  refine h ?_
  rw [power_eq_pow, ← pow_mul, Nat.mul_div_cancel' hn, pow_sub_one hx]

end AttributeEncryption.Residue
