import AttributeEncryption.Proofs.Primality
import AttributeEncryption.Proofs.Residues
import AttributeEncryption.Proofs.Scalars

/-!
# The group order

The group order is prime (`prime_groupOrder`), which a chain of Lucas tests shows. So scalars are
a field : they have no zero divisors, the inverse of a scalar other than 0 is one
(`Scalar.inverse?_eq_some`), and integers between the order and its negative are told apart from
0 (`Scalar.intCast_eq_zero_iff`).
-/

open scoped Fin.CommRing

namespace AttributeEncryption

/-! ## The chain of the group order -/

/-- The chain that ends with the group order. -/
def groupOrderChain : List LucasCertificate :=
  [⟨639533339, 2, [2, 229, 853, 1637]⟩,
    ⟨65865678001877903, 5, [2, 83, 379, 1637, 639533339]⟩,
    ⟨13818364434197438864469338081, 3, [2, 2, 2, 2, 2, 5, 823, 1593227, 65865678001877903]⟩,
    ⟨12048837557, 2, [2, 2, 7, 7, 661, 93001]⟩,
    ⟨5156902474397, 2, [2, 2, 107, 12048837557]⟩,
    ⟨1670836401704629, 2, [2, 2, 3, 3, 3, 3, 5156902474397]⟩,
    ⟨405928799, 22, [2, 11, 3691, 4999]⟩,
    ⟨groupOrder, 5, List.replicate 28 2 ++ [3, 3, 13, 29, 983, 11003, 237073, 405928799,
      1670836401704629, 13818364434197438864469338081]⟩]

theorem prime_groupOrder : groupOrder.Prime := by
  have hchain : lucasChain smallPrimes groupOrderChain = true := by decide +kernel
  exact prime_of_lucasChain prime_of_mem_smallPrimes hchain _
    (List.getLast_mem (List.cons_ne_nil _ _))

instance : Fact groupOrder.Prime :=
  ⟨prime_groupOrder⟩

/-! ## Scalars as a field -/

instance : IsDomain Scalar :=
  Residue.isField.isDomain

namespace Scalar

/-- Scalars other than 0 have an inverse. -/
theorem inverse?_eq_some {k : Scalar} (hk : k ≠ 0) :
    ∃ inverse, k.inverse? = some inverse ∧ inverse * k = 1 :=
  ⟨Residue.inverse k, if_neg hk, Residue.inverse_mul_cancel hk⟩

/-- Only 0 is an integer of small magnitude that the order divides. -/
theorem intCast_eq_zero_iff {n : ℤ} (h : |n| < groupOrder) : (n : Scalar) = 0 ↔ n = 0 := by
  rw [CharP.intCast_eq_zero_iff Scalar groupOrder]
  exact ⟨fun hdvd => Int.eq_zero_of_abs_lt_dvd hdvd h, fun hzero => hzero ▸ dvd_zero _⟩

end Scalar

end AttributeEncryption
