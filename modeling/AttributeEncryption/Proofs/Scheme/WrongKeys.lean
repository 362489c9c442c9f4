import AttributeEncryption.Proofs.Scheme.Payloads
import AttributeEncryption.Proofs.Scheme.Policies
import AttributeEncryption.Proofs.Scheme.Recovery

/-!
# Keys that do not satisfy a policy

The weights for the rows of such a key do not combine them to the target. What the weighted
sum has beyond the target is small, so it is not 0 modulo the group order either
(`Compiled.exists_defect_ne_zero`). Decryption succeeds with bytes of the right number, and
the multiplier is recovered only for the vectors on the hyperplane of this defect
(`decrypt_of_unsatisfied`).
-/

open scoped Fin.CommRing

namespace AttributeEncryption

/-! ## The defect of weights -/

/-- What the weighted sum of the rows has beyond `(1, 0, …, 0)`. -/
def Weights.defect (w : Weights) (rows : List (List Int32)) (j : ℕ) : ℤ :=
  weightedSum w.coefficients rows j - if j = 0 then 1 else 0

/-- The product of the defect with a vector is what the product of the weighted sum has beyond
the first scalar. -/
theorem Weights.sum_defect_mul (w : Weights) (rows : List (List Int32)) (secret : Scalar)
    (rest : List Scalar) :
    ∑ j ∈ Finset.range (secret :: rest).length,
        (w.defect rows j : Scalar) * (secret :: rest).getD j 0 =
      ∑ j ∈ Finset.range (secret :: rest).length,
        (weightedSum w.coefficients rows j : Scalar) * (secret :: rest).getD j 0 - secret := by
  have htarget := @sum_target_mul (fun j => if j = 0 then 1 else 0) 1 secret rest fun _ _ => rfl
  rw [Int.cast_one, one_mul] at htarget
  simp only [defect, Int.cast_sub, sub_mul, Finset.sum_sub_distrib]
  rw [htarget]

/-- If the held leaves do not satisfy a tree, the defect of its weights is not 0 modulo the
group order. -/
theorem Formula.Compiled.exists_defect_ne_zero {tree : AccessTree} {m : ShareMatrix}
    (h : tree.Compiled m) {held : UInt32 → Bool} (hholds : tree.holds held = false) :
    ∃ w, m.weights (m.unavailable held) = .ok w ∧ w.scale = 1 ∧
      ∃ j < m.columns, (w.defect m.rows j : Scalar) ≠ 0 := by
  obtain ⟨w, hw, hscale, hle, hreconstruction⟩ := h.exists_reconstruction held
  have hunreachable : ¬ Reachable m.rows (m.unavailable held) := by
    rw [h.reachable_iff, hholds]
    exact Bool.false_ne_true
  rw [← hreconstruction.sum_eq_iff] at hunreachable
  push Not at hunreachable
  obtain ⟨j, hj, hne⟩ := hunreachable
  refine ⟨w, hw, hscale, j, hj, ?_⟩
  have hlength : (tree.leaves.length : ℤ) ≤ 2 ^ 32 := by exact_mod_cast h.leaves_length_le
  have hsum := @abs_weightedSum_le _ j (by positivity) _ _ hle
    (fun row hrow => h.abs_rowEntries_le row hrow j)
  have hsmall : |weightedSum w.coefficients m.rows j| ≤ 2 ^ 64 := by
    rw [h.rowCount_eq] at hsum
    exact hsum.trans (mul_le_mul hlength hlength (by positivity) (by decide))
  have hdefect : |w.defect m.rows j| < groupOrder := by
    have htarget : |(if j = 0 then 1 else 0 : ℤ)| ≤ 1 := by split_ifs <;> simp
    have habs := abs_sub (weightedSum w.coefficients m.rows j) (if j = 0 then 1 else 0)
    exact (habs.trans (add_le_add hsmall htarget)).trans_lt (by decide)
  rw [ne_eq, Scalar.intCast_eq_zero_iff hdefect, Weights.defect, sub_eq_zero]
  rwa [hscale] at hne

/-! ## Decryption with wrong keys -/

variable {S : Suite} {X₁ X₂ X : Type} [AddCommGroup X₁] [Module Scalar X₁] [AddCommGroup X₂]
  [Module Scalar X₂] [AddCommGroup X] [Module Scalar X] {M : S.Model X₁ X₂ X}
  {x : X₁} {y : X₂} {α a t : Scalar} {pp : PublicParameters S} {msk : MasterKey S}
  {sk : PrivateKey S}

/-- With weights of scale 1, an issued key recovers the multiplier exactly if the product of
the defect with the vector is 0. -/
theorem Established.recover_eq_iff (h : Established M x y α a pp msk)
    (hsk : Issued M x y α a t pp sk) {matrix : ShareMatrix}
    {attributes : List (UInt32 × Attribute S.G1)}
    (hattributes : pp.Resolves matrix.labels attributes)
    {secret : Scalar} {rest scalars : List Scalar}
    (hvector : (secret :: rest).length = matrix.columns)
    (hscalars : scalars.length = matrix.rowCount) {w : Weights}
    (hw : matrix.weights (matrix.unavailable sk.holds) = .ok w) (hscale : w.scale = 1)
    (ha : a ≠ 0) (ht : t ≠ 0) (hfull : pp.FullOrder) :
    pp.recover (pp.headerWith matrix attributes secret rest scalars) sk =
        .ok (S.gt.pow pp.blinding secret) ↔
      ∑ j ∈ Finset.range matrix.columns,
        (w.defect matrix.rows j : Scalar) * (secret :: rest).getD j 0 = 0 := by
  obtain ⟨scaleInverse, hinverse, hrecover⟩ :=
    h.exists_recover_eq hsk hattributes hvector hscalars hw
  rw [hscale, Int.cast_one, mul_one] at hinverse
  rw [hrecover, h.blinding_pow, Except.ok.injEq, (h.power_injective hfull).eq_iff, hinverse,
    one_mul, add_eq_left, mul_eq_zero_iff_left (mul_ne_zero ha ht), ← hvector,
    w.sum_defect_mul, sub_eq_zero, sub_eq_zero, eq_comm]

/-- For every policy over distinct registered names and every issued key whose attributes do
not satisfy it, there is a vector other than 0 modulo the group order, the defect of the
weights for the key's rows, such that : whatever is drawn, data is encrypted and the key
decrypts it to as many bytes; and if `a` and the key's scalar `t` are not 0 and `e(g₁, g₂)` has
full order, the key recovers the multiplier exactly if the product of the defect with the drawn
vector is 0. -/
theorem decrypt_of_unsatisfied (M : S.Model X₁ X₂ X) {bits : UInt32} {ρ₀ : Randomness}
    {pp₀ : PublicParameters S} (hsetup : (setup S bits).result ρ₀ = .ok (pp₀, msk))
    (hpp : Registrations pp₀ pp) {policy : Policy} (hnodup : policy.leaves.Nodup)
    (hleaves : ∀ name ∈ policy.leaves, pp.registry.Has name) (hsk : pp.Issues msk t sk)
    (hunsatisfied : pp.satisfies sk policy = false) :
    ∃ matrix w, pp.compile policy = .ok matrix ∧
      matrix.weights (matrix.unavailable sk.holds) = .ok w ∧
      (∃ j < matrix.columns, (w.defect matrix.rows j : Scalar) ≠ 0) ∧
      ∀ ρ, ∃ header multiplier, (pp.encapsulate matrix).result ρ = .ok (header, multiplier) ∧
        (∀ data, ∃ bytes,
          (pp.encrypt matrix data).result ρ = .ok ⟨header, S.mask multiplier data⟩ ∧
          pp.decrypt ⟨header, S.mask multiplier data⟩ sk = .ok bytes ∧
          bytes.length = data.length) ∧
        (((setupSecrets S).value ρ₀).2 ≠ 0 → t ≠ 0 → pp.FullOrder →
          (pp.recover header sk = .ok multiplier ↔
            ∑ j ∈ Finset.range matrix.columns, (w.defect matrix.rows j : Scalar) *
              ((Randomness.scalars matrix.columns).value ρ).getD j 0 = 0)) := by
  obtain ⟨γ, hγ⟩ := M.first.generator
  obtain ⟨k, y, hestablished⟩ := exists_established M hsetup hγ
  have h := hestablished.registrations hpp
  have hissued := h.issued hsk
  obtain ⟨matrix, hcompile, hmatrix⟩ := PublicParameters.exists_compile hleaves hnodup
  obtain ⟨attributes, hlookUp, hattributes⟩ :=
    PublicParameters.exists_lookUpIds_of_compiled hleaves hmatrix
  rw [PublicParameters.satisfies_eq hleaves] at hunsatisfied
  obtain ⟨w, hw, hscale, hdefect⟩ := hmatrix.exists_defect_ne_zero hunsatisfied
  refine ⟨matrix, w, hcompile, hw, hdefect, fun ρ => ?_⟩
  obtain ⟨secret, rest, ρ', hdrawn, hvector, hscalars, hgives⟩ :=
    PublicParameters.gives_encapsulate hlookUp
      (hattributes.length_eq.symm.trans matrix.labels_length) ρ
  refine ⟨_, _, hgives.result_eq, fun data => ?_, fun ha ht hfull => ?_⟩
  · obtain ⟨scaleInverse, -, hrecover⟩ :=
      h.exists_recover_eq hissued hattributes hvector hscalars hw
    refine ⟨_, (PublicParameters.gives_encrypt hgives data).result_eq,
      PublicParameters.decrypt_eq_mask hrecover _, ?_⟩
    rw [S.length_mask, S.length_mask]
  · rw [hdrawn]
    exact h.recover_eq_iff hissued hattributes hvector hscalars hw hscale ha ht hfull

/-- A key for one attribute decrypts what was encrypted for two to three bytes, and recovers the
multiplier exactly for the vectors on a hyperplane. -/
theorem wrong_key_on_hyperplane :
    ∃ pp₀ msk pp sk matrix, ∃ w : Weights, ∃ header multiplier bytes,
      (setup exponents 128).result (.ofWords #[1]) = .ok (pp₀, msk) ∧ Registrations pp₀ pp ∧
      (pp.issueForNames msk ["a"]).result (.ofWords #[1]) = .ok sk ∧
      pp.compile (.and (.leaf "a") (.leaf "b")) = .ok matrix ∧
      (∃ j < matrix.columns, (w.defect matrix.rows j : Scalar) ≠ 0) ∧
      (pp.encapsulate matrix).result (.ofSeed 1) = .ok (header, multiplier) ∧
      pp.decrypt ⟨header, exponents.mask multiplier [1, 2, 3]⟩ sk = .ok bytes ∧
      bytes.length = 3 ∧
      (pp.recover header sk = .ok multiplier ↔
        ∑ j ∈ Finset.range matrix.columns, (w.defect matrix.rows j : Scalar) *
          ((Randomness.scalars matrix.columns).value (.ofSeed 1)).getD j 0 = 0) := by
  obtain ⟨pp₀, msk, pp, hsetup, hpp, hfull, hentries⟩ := exists_exponents_pair
  obtain ⟨k, y, hestablished⟩ := exists_established exponentsModel hsetup rfl
  have hlookUp : pp.lookUpNames ["a"] =
      .ok [(0, ⟨"a", exponentGroup.random.value (.ofWords #[1])⟩)] := by
    unfold PublicParameters.lookUpNames Registry.named?
    rw [hentries]
    rfl
  obtain ⟨t, hsk⟩ := (hestablished.registrations hpp).exists_issueForNames hlookUp
    (List.cons_ne_nil _ _) (.ofWords #[1])
  have hleaves : ∀ name ∈ (Formula.and (.leaf "a") (.leaf "b")).leaves, pp.registry.Has name := by
    intro name hname
    rw [Registry.has_iff, hentries]
    exact hname
  have hunsatisfied := PublicParameters.satisfies_issueForNames hleaves hsk
  obtain ⟨matrix, w, hcompile, -, hdefect, hheader⟩ := decrypt_of_unsatisfied exponentsModel hsetup
    hpp (by decide) hleaves (.forNames (.refl pp) hsk) (hunsatisfied.trans (by decide))
  obtain ⟨header, multiplier, hencapsulate, hdecrypt, hiff⟩ := hheader (.ofSeed 1)
  obtain ⟨bytes, -, hbytes, hlength⟩ := hdecrypt [1, 2, 3]
  exact ⟨pp₀, msk, pp, _, matrix, w, header, multiplier, bytes, hsetup, hpp, hsk, hcompile, hdefect,
    hencapsulate, hbytes, hlength, hiff (by decide +kernel) (by decide +kernel) hfull⟩

end AttributeEncryption
