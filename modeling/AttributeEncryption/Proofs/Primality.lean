import AttributeEncryption.Proofs.Powers
import Mathlib.NumberTheory.LucasPrimality
import Mathlib.Tactic.NormNum.Prime

/-!
# Primes by Lucas's test

A number whose powers modulo `p` first reach 1 at the exponent `p - 1` generates the residues
modulo `p`, so `p` is prime (`prime_of_lucasTest`). The test needs the prime factors of `p - 1`;
the great ones among them pass it before, in a chain (`prime_of_lucasChain`).
-/

namespace AttributeEncryption

/-! ## Lucas's test -/

/-- A power modulo `m`. -/
def powMod (m a n : ℕ) : ℕ :=
  power (fun x y => x * y % m) (1 % m) a n % m

theorem powMod_eq (m a n : ℕ) : powMod m a n = a ^ n % m :=
  power_spec (R := fun q n => q % m = a ^ n % m) (by rw [Nat.mod_mod, pow_zero])
    (fun hp hq => by rw [Nat.mod_mod, Nat.mul_mod, hp, hq, ← Nat.mul_mod, pow_add])
    (by rw [pow_one]) n

/-- Whether the powers of `a` modulo `p` reach 1 at `p - 1` and not before, given the prime
factors of `p - 1` with their multiplicities. -/
def lucasTest (p a : ℕ) (factors : List ℕ) : Bool :=
  1 < p && factors.prod == p - 1 && powMod p a (p - 1) == 1 &&
    factors.all fun q => powMod p a ((p - 1) / q) != 1

/-- A number that passes the test is prime. -/
theorem prime_of_lucasTest {p : ℕ} (a : ℕ) (factors : List ℕ)
    (hfactors : ∀ q ∈ factors, q.Prime) (h : lucasTest p a factors = true) : p.Prime := by
  simp only [lucasTest, powMod_eq, Bool.and_eq_true, decide_eq_true_eq, beq_iff_eq,
    List.all_eq_true, bne_iff_ne] at h
  obtain ⟨⟨⟨hp, hproduct⟩, hone⟩, hbefore⟩ := h
  have hpow (n : ℕ) : (a : ZMod p) ^ n = 1 ↔ a ^ n % p = 1 := by
    rw [← Nat.cast_pow, ← Nat.cast_one, ZMod.natCast_eq_natCast_iff', Nat.mod_eq_of_lt hp]
  refine lucas_primality p a ((hpow _).mpr hone) fun q hq hdvd => ?_
  -- a prime that divides the product is one of the factors
  obtain ⟨f, hf, hqf⟩ := (Prime.dvd_prod_iff hq.prime).mp (hproduct ▸ hdvd)
  obtain rfl := (Nat.prime_dvd_prime_iff_eq hq (hfactors f hf)).mp hqf
  exact fun hzmod => hbefore q hf ((hpow _).mp hzmod)

/-! ## Chains of tests -/

/-- A number, a number whose powers are tested, and the prime factors that the test needs, with
their multiplicities. -/
structure LucasCertificate where
  number : ℕ
  base : ℕ
  factors : List ℕ

/-- Whether the numbers pass the test one after the other, each with factors that are known
before it. -/
def lucasChain : List ℕ → List LucasCertificate → Bool
  | _, [] => true
  | known, c :: rest => c.factors.all known.contains && lucasTest c.number c.base c.factors &&
      lucasChain (c.number :: known) rest

/-- If the factors that are known at first are prime, so are the numbers of a chain. -/
theorem prime_of_lucasChain : ∀ {known : List ℕ} {chain : List LucasCertificate},
    (∀ q ∈ known, q.Prime) → lucasChain known chain = true → ∀ c ∈ chain, c.number.Prime
  | _, [], _, _ => by simp
  | known, c :: rest, hknown, h => by
    simp only [lucasChain, Bool.and_eq_true, List.all_eq_true, List.contains_iff_mem] at h
    obtain ⟨⟨hfactors, htest⟩, hrest⟩ := h
    have hc : c.number.Prime :=
      prime_of_lucasTest c.base c.factors (fun q hq => hknown q (hfactors q hq)) htest
    have hknown' : ∀ q ∈ c.number :: known, q.Prime := List.forall_mem_cons.mpr ⟨hc, hknown⟩
    exact List.forall_mem_cons.mpr ⟨hc, prime_of_lucasChain hknown' hrest⟩

/-- Primes for chains to start from. -/
def smallPrimes : List ℕ :=
  [2, 3, 5, 7, 11, 13, 17, 19, 29, 41, 67, 73, 83, 89, 107, 109, 229, 311, 379, 661, 823, 853, 911,
    983, 1231, 1637, 3557, 3691, 4999, 11003, 13327, 93001, 237073, 327599, 1593227, 1853641]

theorem prime_of_mem_smallPrimes : ∀ q ∈ smallPrimes, q.Prime := by
  unfold smallPrimes
  norm_num

end AttributeEncryption
