import AttributeEncryption.Proofs.Scheme.Payloads
import AttributeEncryption.Proofs.Scheme.Policies
import AttributeEncryption.Proofs.Scheme.Recovery

/-!
# The round trip

For a compiled policy the weights have scale 1 and combine the rows that a satisfying key
holds to the target, so recovery gives the multiplier (`Established.recover_eq_multiplier`).
With name resolution before it and the payloads behind it, everything from `setup` on
succeeds, and what was encrypted or wrapped for a policy comes out again under every key whose
names satisfy it (`round_trip`).
-/

open scoped Fin.CommRing

namespace AttributeEncryption

variable {S : Suite} {X₁ X₂ X : Type} [AddCommGroup X₁] [Module Scalar X₁] [AddCommGroup X₂]
  [Module Scalar X₂] [AddCommGroup X] [Module Scalar X] {M : S.Model X₁ X₂ X}
  {x : X₁} {y : X₂} {α a t : Scalar} {pp : PublicParameters S} {msk : MasterKey S}
  {sk : PrivateKey S}

/-- A key that satisfies a compiled tree recovers the multiplier of every header for it. -/
theorem Established.recover_eq_multiplier (h : Established M x y α a pp msk)
    (hsk : Issued M x y α a t pp sk) {tree : AccessTree} {matrix : ShareMatrix}
    (hmatrix : tree.Compiled matrix) (hholds : tree.holds sk.holds = true)
    {attributes : List (UInt32 × Attribute S.G1)}
    (hattributes : pp.Resolves matrix.labels attributes) {secret : Scalar}
    {rest scalars : List Scalar} (hvector : (secret :: rest).length = matrix.columns)
    (hscalars : scalars.length = matrix.rowCount) :
    pp.recover (pp.headerWith matrix attributes secret rest scalars) sk =
      .ok (S.gt.pow pp.blinding secret) := by
  obtain ⟨w, hw, -, -, -⟩ := hmatrix.exists_reconstruction sk.holds
  exact h.recover_eq_of_reachable hsk hattributes hvector hscalars hw
    ((hmatrix.reachable_iff sk.holds).mpr hholds)

/-- Policies over distinct registered names compile, keys for registered names are issued, and
keys whose names satisfy the policy recover the multiplier of every header that is made. -/
theorem Established.exists_recovery (h : Established M x y α a pp msk) {policy : Policy}
    (hnodup : policy.leaves.Nodup) (hleaves : ∀ name ∈ policy.leaves, pp.registry.Has name)
    {names : List String} (hnames : ∀ name ∈ names, pp.registry.Has name)
    (hholds : policy.holds (names.contains ·) = true) :
    ∃ matrix, pp.compile policy = .ok matrix ∧
      ∀ ρ, ∃ sk, (pp.issueForNames msk names).result ρ = .ok sk ∧
        ∀ ρ', ∃ header multiplier ρ'',
          (pp.encapsulate matrix).Gives ρ' (header, multiplier) ρ'' ∧
            pp.recover header sk = .ok multiplier := by
  obtain ⟨matrix, hcompile, hmatrix⟩ := PublicParameters.exists_compile hleaves hnodup
  obtain ⟨held, hlookUp, hheld⟩ := PublicParameters.exists_lookUpNames hnames
  have hne : held ≠ [] := by
    obtain ⟨name, -, hname⟩ := Formula.exists_leaf_of_holds hholds
    rintro rfl
    cases hheld
    simp at hname
  obtain ⟨attributes, hattributes, hresolves⟩ :=
    PublicParameters.exists_lookUpIds_of_compiled hleaves hmatrix
  refine ⟨matrix, hcompile, fun ρ => ?_⟩
  obtain ⟨t, hissue⟩ := h.exists_issueForNames hlookUp hne ρ
  refine ⟨_, hissue, fun ρ' => ?_⟩
  obtain ⟨secret, rest, scalars, ρ'', hvector, hscalars, hgives⟩ :=
    PublicParameters.exists_encapsulate hattributes
      (hresolves.length_eq.symm.trans matrix.labels_length) ρ'
  refine ⟨_, _, ρ'', hgives, h.recover_eq_multiplier (h.issued_issueWith hheld.mem_entries t)
    hmatrix ?_ hresolves hvector hscalars⟩
  rwa [PublicParameters.holds_map_idOf hleaves hheld]

/-- For every security level, all random words and all successful registrations, whatever is
encrypted or wrapped for a policy over distinct registered names, up to `2^31` of them, comes
out again under every key for registered names that satisfy the policy; and all of the setup,
the compilation, the encryption and the issuing succeed. Wrapping needs data within the length
limit. -/
theorem round_trip (M : S.Model X₁ X₂ X) {bits : UInt32} (hpos : 1 ≤ bits)
    (hle : bits ≤ greatestSecurityBits) (ρ₀ : Randomness) :
    ∃ pp₀ msk, (setup S bits).result ρ₀ = .ok (pp₀, msk) ∧
      ∀ pp, Registrations pp₀ pp →
      ∀ policy : Policy, policy.leaves.Nodup → policy.leaves.length ≤ 2 ^ 31 →
        (∀ name ∈ policy.leaves, pp.registry.Has name) →
      ∀ names : List String, (∀ name ∈ names, pp.registry.Has name) →
        policy.holds (names.contains ·) = true →
      ∃ matrix, pp.compile policy = .ok matrix ∧
        ∀ ρ₁, ∃ sk, (pp.issueForNames msk names).result ρ₁ = .ok sk ∧
          ∀ ρ₂ data,
            (∃ ct, (pp.encrypt matrix data).result ρ₂ = .ok ct ∧ pp.decrypt ct sk = .ok data) ∧
            (data.length ≤ Gcm.greatestLength →
              ∃ ct, (pp.wrap matrix data).result ρ₂ = .ok ct ∧ pp.unwrap ct sk = .ok data) := by
  obtain ⟨pp₀, msk, hsetup, x, y, α, a, hestablished⟩ := exists_setup M hpos hle ρ₀
  refine ⟨pp₀, msk, hsetup, ?_⟩
  intro pp hpp policy hnodup _ hleaves names hnames hholds
  obtain ⟨matrix, hcompile, hissue⟩ :=
    (hestablished.registrations hpp).exists_recovery hnodup hleaves hnames hholds
  refine ⟨matrix, hcompile, fun ρ₁ => ?_⟩
  obtain ⟨sk, hsk, hheader⟩ := hissue ρ₁
  refine ⟨sk, hsk, fun ρ₂ data => ?_⟩
  obtain ⟨header, multiplier, ρ', hencapsulate, hrecover⟩ := hheader ρ₂
  refine ⟨⟨_, (PublicParameters.gives_encrypt hencapsulate data).result_eq,
    PublicParameters.decrypt_eq_ok hrecover data⟩, fun hdata => ?_⟩
  obtain ⟨ct, ρ'', hwrap, hunwrap⟩ := PublicParameters.exists_wrap hencapsulate hrecover hdata
  exact ⟨ct, hwrap.result_eq, hunwrap⟩

/-- Two attributes are registered, and a key for both decrypts what was encrypted for their
conjunction and unwraps what was wrapped for it. -/
theorem decrypts_conjunction :
    ∃ pp₀ msk pp₁ pp₂ matrix sk ct ct',
      (setup exponents 128).result (.ofSeed 0) = .ok (pp₀, msk) ∧
      (pp₀.register "a").result (.ofSeed 1) = .ok (pp₁, 0) ∧
      (pp₁.register "b").result (.ofSeed 2) = .ok (pp₂, 1) ∧
      pp₂.compile (.and (.leaf "a") (.leaf "b")) = .ok matrix ∧
      (pp₂.issueForNames msk ["b", "a"]).result (.ofSeed 3) = .ok sk ∧
      (pp₂.encrypt matrix [1, 2, 3]).result (.ofSeed 4) = .ok ct ∧
      pp₂.decrypt ct sk = .ok [1, 2, 3] ∧
      (pp₂.wrap matrix [1, 2, 3]).result (.ofSeed 4) = .ok ct' ∧
      pp₂.unwrap ct' sk = .ok [1, 2, 3] := by
  obtain ⟨pp₀, msk, hsetup, hround⟩ :=
    @round_trip exponents _ _ _ _ _ _ _ _ _ exponentsModel 128 (by decide) (by decide) (.ofSeed 0)
  have hempty : pp₀.registry = .empty := registry_of_setup hsetup
  obtain ⟨pp₁, p, hfirst, hentries₁⟩ := @exists_register _ pp₀ "a" (by decide)
    (by rw [hempty]; simp [namesOf, Registry.empty, IdMap.empty]) (by rw [hempty]; rfl) (.ofSeed 1)
  rw [hempty] at hfirst hentries₁
  have hnext : pp₁.registry.nextId = 1 := by
    unfold Registry.nextId
    rw [hentries₁]
    rfl
  obtain ⟨pp₂, q, hsecond, hentries₂⟩ := @exists_register _ pp₁ "b" (by decide)
    (by
      rw [hentries₁]
      change "b" ∉ ["a"]
      decide)
    (by rw [hnext, hentries₁]; rfl) (.ofSeed 2)
  rw [hnext, hentries₁] at hentries₂
  rw [hnext] at hsecond
  have hregistered : ∀ name ∈ ["a", "b"], pp₂.registry.Has name := by
    intro name hname
    rw [Registry.has_iff, hentries₂]
    exact hname
  obtain ⟨matrix, hcompile, hissue⟩ := hround pp₂ (.step (.step (.refl pp₀) hfirst) hsecond)
    (.and (.leaf "a") (.leaf "b")) (by decide) (by decide) hregistered ["b", "a"]
    (fun name hname => hregistered name (by simpa [or_comm] using hname)) (by decide)
  obtain ⟨sk, hsk, hdata⟩ := hissue (.ofSeed 3)
  obtain ⟨⟨ct, hct, hdecrypt⟩, hwrap⟩ := hdata (.ofSeed 4) [1, 2, 3]
  obtain ⟨ct', hct', hunwrap⟩ := hwrap (by decide)
  exact ⟨pp₀, msk, pp₁, pp₂, matrix, sk, ct, ct', hsetup, hfirst, hsecond, hcompile, hsk, hct,
    hdecrypt, hct', hunwrap⟩

end AttributeEncryption
