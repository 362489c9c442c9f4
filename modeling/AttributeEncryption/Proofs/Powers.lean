import AttributeEncryption.Algebra.Power
import Mathlib.Algebra.Ring.Nat
import Mathlib.Tactic.SplitIfs

/-!
# What repeated squaring computes

`power` squares and multiplies. Whatever is said of the unit, of products and of `x`, with
exponents that add up, it says of all powers of `x` (`power_spec`). In a monoid these are the
powers that it has anyway (`power_eq_pow`).
-/

namespace AttributeEncryption

variable {α : Type} {op : α → α → α} {unit x : α} {R : α → ℕ → Prop}

theorem powerDigits_spec (hunit : R unit 0)
    (hop : ∀ {p q : α} {k l : ℕ}, R p k → R q l → R (op p q) (k + l)) (hx : R x 1) :
    ∀ {digits n : ℕ}, n < 2 ^ digits → R (powerDigits op unit x digits n) n
  | 0, n, h => by
    obtain rfl : n = 0 := by omega
    exact hunit
  | digits + 1, n, h => by
    have hroot : R (powerDigits op unit x digits (n / 2)) (n / 2) := by
      rw [pow_succ] at h
      exact powerDigits_spec hunit hop hx (by omega)
    have hsquare := hop hroot hroot
    rw [powerDigits]
    split_ifs with heven
    · rwa [show n / 2 + n / 2 = n by omega] at hsquare
    · have hodd := hop hsquare hx
      rwa [show n / 2 + n / 2 + 1 = n by omega] at hodd

/-- What `R` says of units, products and `x` itself, it says of all powers of `x`. -/
theorem power_spec (hunit : R unit 0)
    (hop : ∀ {p q : α} {k l : ℕ}, R p k → R q l → R (op p q) (k + l)) (hx : R x 1) (n : ℕ) :
    R (power op unit x n) n :=
  powerDigits_spec hunit hop hx Nat.lt_log2_self

theorem power_eq_pow {M : Type} [Monoid M] (x : M) (n : ℕ) : power (· * ·) 1 x n = x ^ n :=
  power_spec (R := fun y k => y = x ^ k) (pow_zero x).symm
    (fun hy hz => by rw [hy, hz, pow_add]) (pow_one x).symm n

end AttributeEncryption
