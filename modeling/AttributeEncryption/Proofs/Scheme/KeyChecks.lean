import AttributeEncryption.Proofs.Scheme.Growth

/-!
# What the checks of keys accept

In groups that a pair of generators spans, with a pairing that does not degenerate on them
(`Suite.Model.Cyclic`), the checks are exact. The check of a master key accepts `g₁^α` only, and
the check of a private key accepts the one `K` that goes with its `L`, if its attributes are
registered (`key_checks_exact`). Neither uses that a key was ever issued.

A pairing with an element of the second group other than 0 can be cancelled
(`Cyclic.pair_right_inj`), and that element spans the group (`Cyclic.existsUnique_smul`). The
check of a private key is then one equation in the first group.
-/

open scoped Fin.CommRing

namespace AttributeEncryption

variable {S : Suite} {X₁ X₂ X : Type} [AddCommGroup X₁] [Module Scalar X₁] [AddCommGroup X₂]
  [Module Scalar X₂] [AddCommGroup X] [Module Scalar X] {M : S.Model X₁ X₂ X}
  {γ₁ : X₁} {γ₂ : X₂}

/-! ## Cyclic groups -/

/-- The two elements span their groups, and the value of their pairing is not neutral. -/
structure Suite.Model.Cyclic (M : S.Model X₁ X₂ X) (γ₁ : X₁) (γ₂ : X₂) : Prop where
  first : ∀ x : X₁, ∃ k : Scalar, k • γ₁ = x
  second : ∀ y : X₂, ∃ k : Scalar, k • γ₂ = y
  nondegenerate : M.values.value (M.e γ₁ γ₂) ≠ S.gt.one

namespace Suite.Model.Cyclic

/-- The pairing of the generators has full order : no power of it is neutral but that for 0. -/
theorem eq_zero_of_value_smul (hM : M.Cyclic γ₁ γ₂) {k : Scalar}
    (hk : M.values.value (k • M.e γ₁ γ₂) = S.gt.one) : k = 0 := by
  by_contra hne
  obtain ⟨inverse, -, hinverse⟩ := Scalar.inverse?_eq_some hne
  refine hM.nondegenerate ?_
  calc M.values.value (M.e γ₁ γ₂)
      = S.gt.pow (M.values.value (k • M.e γ₁ γ₂)) inverse := by
        rw [M.values.pow_value, smul_smul, hinverse, one_smul]
    _ = S.gt.one := by rw [hk, M.values.one, M.values.pow_value, smul_zero]

/-- So has the second generator. -/
theorem eq_zero_of_smul (hM : M.Cyclic γ₁ γ₂) {k : Scalar} (hk : k • γ₂ = 0) : k = 0 := by
  refine hM.eq_zero_of_value_smul ?_
  rw [← map_smul, hk, map_zero, M.values.one]

/-- An element of the second group other than 0 is a multiple by a scalar that has an inverse. -/
theorem exists_inverse (hM : M.Cyclic γ₁ γ₂) {y : X₂} (hy : y ≠ 0) :
    ∃ d inverse : Scalar, y = d • γ₂ ∧ inverse * d = 1 := by
  obtain ⟨d, rfl⟩ := hM.second y
  have hd : d ≠ 0 := by
    rintro rfl
    exact hy (zero_smul _ _)
  obtain ⟨inverse, -, hinverse⟩ := Scalar.inverse?_eq_some hd
  exact ⟨d, inverse, rfl, hinverse⟩

/-- In a pairing with an element other than 0 the other element can be told. -/
theorem pair_right_inj (hM : M.Cyclic γ₁ γ₂) {x x' : X₁} {y : X₂} (hy : y ≠ 0) :
    M.values.value (M.e x y) = M.values.value (M.e x' y) ↔ x = x' := by
  refine ⟨fun heq => ?_, fun heq => by rw [heq]⟩
  obtain ⟨k, hk⟩ := hM.first (x - x')
  obtain ⟨d, inverse, rfl, hinverse⟩ := hM.exists_inverse hy
  have hpair : M.e (x - x') (d • γ₂) = (d * k) • M.e γ₁ γ₂ := by
    rw [← hk, map_smul, map_smul, LinearMap.smul_apply, smul_smul]
  have hone : M.values.value ((d * k) • M.e γ₁ γ₂) = S.gt.one := by
    rw [← hpair, map_sub, LinearMap.sub_apply]
    exact M.values.value_sub_eq_one heq
  have hzero : k = 0 := by
    rw [← one_mul k, ← hinverse, mul_assoc, hM.eq_zero_of_value_smul hone, mul_zero]
  rw [hzero, zero_smul] at hk
  exact sub_eq_zero.mp hk.symm

/-- An element other than 0 spans the second group, and its multiples can be told. -/
theorem existsUnique_smul (hM : M.Cyclic γ₁ γ₂) {y : X₂} (hy : y ≠ 0) (l : X₂) :
    ∃! t : Scalar, l = t • y := by
  obtain ⟨m, rfl⟩ := hM.second l
  obtain ⟨d, inverse, rfl, hinverse⟩ := hM.exists_inverse hy
  refine ⟨m * inverse, ?_, fun t ht => ?_⟩
  · simp only [smul_smul, mul_assoc, hinverse, mul_one]
  · have hdifference : m - t * d = 0 := by
      refine hM.eq_zero_of_smul ?_
      rw [sub_smul, ht, smul_smul, sub_self]
    rw [sub_eq_zero.mp hdifference, mul_assoc, mul_comm d, hinverse, mul_one]

end Suite.Model.Cyclic

/-! ## What is accepted -/

section Accepted

variable {x : X₁} {y : X₂} {α a : Scalar} {pp : PublicParameters S} {msk key : MasterKey S}
  {z : X₁}

/-- The one master key that is accepted is `g₁^α`. -/
theorem Established.checkMasterKey_eq_ok_iff (h : Established M x y α a pp msk)
    (hM : M.Cyclic γ₁ γ₂) (hy : y ≠ 0) (hz : M.first.stands key.point z) :
    pp.checkMasterKey key = .ok () ↔ z = α • x := by
  have hpair : S.pair key.point pp.g2 = pp.blinding ↔ z = α • x := by
    rw [M.pair hz h.g2, h.blinding, ← LinearMap.smul_apply, ← map_smul, hM.pair_right_inj hy]
  unfold PublicParameters.checkMasterKey
  split_ifs with heq
  · exact iff_of_true rfl (hpair.mp heq)
  · exact iff_of_false nofun (mt hpair.mpr heq)

/-- The private keys that are accepted are those with `g₁^α · g₁^{a t}` and `g₂^t` for some `t`
whose attributes are registered. -/
theorem Established.checkPrivateKey_eq_ok_iff (h : Established M x y α a pp msk)
    (hM : M.Cyclic γ₁ γ₂) (hy : y ≠ 0) {sk : PrivateKey S} {k : X₁} {t : Scalar}
    (hk : M.first.stands sk.k k) (hl : M.second.stands sk.l (t • y)) :
    pp.checkPrivateKey sk = .ok () ↔
      k = α • x + t • a • x ∧ ∀ id ∈ sk.components.ids, pp.knows id = true := by
  have hpair : S.pair sk.k pp.g2 = S.gt.mul pp.blinding (S.pair pp.g1a sk.l) ↔
      k = α • x + t • a • x := by
    rw [M.pair hk h.g2, M.pair h.g1a hl, h.blinding, M.values.mul, ← hM.pair_right_inj hy]
    simp only [map_add, map_smul, LinearMap.add_apply, LinearMap.smul_apply]
  rw [PublicParameters.checkPrivateKey_eq_ok_iff, PublicParameters.RefusesKey, not_or, not_ne_iff,
    hpair]
  simp only [not_exists, not_and, Bool.not_eq_false]

/-- Keys are issued with accepted master keys only. -/
theorem PublicParameters.Issues.checkMasterKey {t : Scalar} {sk : PrivateKey S}
    (h : pp.Issues key t sk) : pp.checkMasterKey key = .ok () := by
  obtain ⟨pp', attributes, ρ, registers, -, hissue, -⟩ := h.exists_issue
  rw [(grows_of_registrations registers).checkMasterKey_eq]
  exact checkMasterKey_of_issue hissue

/-- Issued keys are accepted, also after more registrations. -/
theorem Established.checkPrivateKey_of_issues (h : Established M x y α a pp msk)
    (hM : M.Cyclic γ₁ γ₂) (hy : y ≠ 0) (hz : M.first.stands key.point z) {t : Scalar}
    {sk : PrivateKey S} (hissued : pp.Issues key t sk) : pp.checkPrivateKey sk = .ok () := by
  obtain rfl := (h.checkMasterKey_eq_ok_iff hM hy hz).mp hissued.checkMasterKey
  have hkey : Established M x y α a pp key := { h with master := hz }
  exact hkey.checkPrivateKey_eq_ok (hkey.issued hissued)

end Accepted

/-- Parameters come from a setup that drew `α` and `a`, and more attributes may have been
registered since. Whatever stands for an element can be checked. A master key is accepted exactly
if it is `g₁^α` ; so the master key of another setup is, exactly if it is the same element. A
private key is accepted exactly if, for the one `t` with `L = g₂^t`, its `K` is
`g₁^α · g₁^{a t}`, and all its attributes are registered. All issued keys are accepted. -/
theorem key_checks_exact (hM : M.Cyclic γ₁ γ₂) {bits : UInt32} {ρ : Randomness}
    {pp₀ pp : PublicParameters S} {msk : MasterKey S}
    (hsetup : (setup S bits).result ρ = .ok (pp₀, msk)) (hne : ¬ M.second.stands pp₀.g2 0)
    (hpp : Registrations pp₀ pp) :
    ∃ x y α a, (setupSecrets S).value ρ = (α, a) ∧ M.first.stands pp.g1 x ∧
      M.second.stands pp.g2 y ∧ M.first.stands pp.g1a (a • x) ∧
      (∀ key z, M.first.stands key.point z → (pp.checkMasterKey key = .ok () ↔ z = α • x)) ∧
      (∀ bits' ρ' pp' msk', (setup S bits').result ρ' = .ok (pp', msk') →
        ∃ x', M.first.stands pp'.g1 x' ∧ (pp.checkMasterKey msk' = .ok () ↔
          ((setupSecrets S).value ρ').1 • x' = α • x)) ∧
      (∀ sk k l, M.first.stands sk.k k → M.second.stands sk.l l →
        (∃! t : Scalar, l = t • y) ∧ ∀ t : Scalar, l = t • y → (pp.checkPrivateKey sk = .ok () ↔
          k = α • x + t • a • x ∧ ∀ id ∈ sk.components.ids, pp.knows id = true)) ∧
      ∀ key z t sk, M.first.stands key.point z → pp.Issues key t sk →
        pp.checkPrivateKey sk = .ok () := by
  obtain ⟨γ, hγ⟩ := M.first.generator
  obtain ⟨k, y, hestablished⟩ := exists_established M hsetup hγ
  have hy : y ≠ 0 := by
    rintro rfl
    exact hne hestablished.g2
  have h := hestablished.registrations hpp
  refine ⟨k • γ, y, _, _, (Prod.eta _).symm, h.g1, h.g2, h.g1a,
    fun key z hz => h.checkMasterKey_eq_ok_iff hM hy hz, fun bits' ρ' pp' msk' hsetup' => ?_,
    fun sk u l hu hl => ⟨hM.existsUnique_smul hy l, fun t ht => ?_⟩,
    fun key z t sk hz hissued => h.checkPrivateKey_of_issues hM hy hz hissued⟩
  · obtain ⟨k', y', h'⟩ := exists_established M hsetup' hγ
    exact ⟨k' • γ, h'.g1, h.checkMasterKey_eq_ok_iff hM hy h'.master⟩
  · rw [ht] at hl
    exact h.checkPrivateKey_eq_ok_iff hM hy hu hl

/-- In the exponents a master key and a private key are accepted, and their neighbours are not. -/
theorem checks_tell_neighbours :
    ∃ (pp : PublicParameters exponents) (msk : MasterKey exponents) (sk : PrivateKey exponents),
      (setup exponents 128).result (.ofWords #[1]) = .ok (pp, msk) ∧
      pp.checkMasterKey msk = .ok () ∧
      pp.checkMasterKey ⟨exponents.g1.add msk.point (1 : Scalar)⟩ ≠ .ok () ∧
      pp.checkPrivateKey sk = .ok () ∧
      pp.checkPrivateKey { sk with k := exponents.g1.add sk.k (1 : Scalar) } ≠ .ok () := by
  obtain ⟨pp, msk, hsetup, _, _, _, _, hestablished⟩ :=
    exists_setup exponentsModel (by decide : (1 : UInt32) ≤ 128) (by decide) (.ofWords #[1])
  have hne : @Option.map _ Scalar (fun p => p.1.g2)
      ((setup exponents 128).result (.ofWords #[1])).toOption ≠ some 0 := by decide +kernel
  rw [hsetup] at hne
  have hM : exponentsModel.Cyclic (1 : Scalar) (1 : Scalar) :=
    ⟨fun x => ⟨x, mul_one x⟩, fun y => ⟨y, mul_one y⟩, by decide⟩
  obtain ⟨x, y, α, a, -, hx, hy, hxa, hmaster, -, hprivate, -⟩ :=
    key_checks_exact hM hsetup (fun h => hne (congrArg some h)) (.refl pp)
  have hneighbour (k : Scalar) : k + 1 ≠ k := by simp
  have hmsk := hestablished.checkMasterKey_eq_ok
  let sk : PrivateKey exponents :=
    { k := α • x + (5 : Scalar) • a • x, l := (5 : Scalar) • y, components := .empty }
  have hsk := (hprivate sk _ _ rfl rfl).2 5 rfl
  refine ⟨pp, msk, sk, hsetup, hmsk, fun hkey => ?_, hsk.mpr ⟨rfl, nofun⟩, fun hkey => ?_⟩
  · exact hneighbour msk.point
      (((hmaster _ _ rfl).mp hkey).trans ((hmaster msk _ rfl).mp hmsk).symm)
  · exact hneighbour sk.k (((hprivate _ _ _ rfl rfl).2 5 rfl).mp hkey).1

end AttributeEncryption
