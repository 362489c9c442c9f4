import AttributeEncryption.Proofs.Scheme.Parameters

/-!
# Keys

A key for registered attributes is issued whatever is drawn (`Established.exists_issue`), and
in a model of the groups it belongs to a scalar `t` of its own (`Issued`). It stays a key of the
parameters when more attributes are registered (`PublicParameters.Issues`). Keys pass the check
even if each of their components is for another scalar (`Assembled`,
`Established.checkPrivateKey_eq_ok`).
-/

open scoped Fin.CommRing

namespace AttributeEncryption

variable {S : Suite} {X₁ X₂ X : Type} [AddCommGroup X₁] [Module Scalar X₁] [AddCommGroup X₂]
  [Module Scalar X₂] [AddCommGroup X] [Module Scalar X] {M : S.Model X₁ X₂ X}
  {x : X₁} {y : X₂} {α a t : Scalar} {pp : PublicParameters S} {msk : MasterKey S}
  {sk : PrivateKey S}

/-! ## Keys and their scalars -/

/-- `K` and `L` of the key are for the scalar `t`, and each of its components is that of a
registered attribute for the scalar `τ id`. -/
structure Assembled (M : S.Model X₁ X₂ X) (x : X₁) (y : X₂) (α a t : Scalar)
    (τ : UInt32 → Scalar) (pp : PublicParameters S) (sk : PrivateKey S) : Prop where
  k : M.first.stands sk.k (α • x + t • a • x)
  l : M.second.stands sk.l (t • y)
  component : ∀ {id : UInt32} {c : S.G1}, sk.components.get? id = some c →
    ∃ b, pp.registry.attribute? id = some b ∧ ∀ h, M.first.stands b.point h →
      M.first.stands c (τ id • h)

/-- The key is one for the scalar `t`, and so are all its components. -/
abbrev Issued (M : S.Model X₁ X₂ X) (x : X₁) (y : X₂) (α a t : Scalar)
    (pp : PublicParameters S) (sk : PrivateKey S) : Prop :=
  Assembled M x y α a t (fun _ => t) pp sk

theorem Established.checkMasterKey_eq_ok (h : Established M x y α a pp msk) :
    pp.checkMasterKey msk = .ok () := by
  unfold PublicParameters.checkMasterKey
  rw [M.pair h.master h.g2, h.blinding, map_smul, LinearMap.smul_apply, if_pos rfl]

/-- The key for some attributes and a drawn scalar. -/
def PublicParameters.issueWith (pp : PublicParameters S) (msk : MasterKey S)
    (attributes : List (UInt32 × Attribute S.G1)) (t : Scalar) : PrivateKey S where
  k := S.g1.add msk.point (S.g1.multiple pp.g1a t)
  l := S.g2.multiple pp.g2 t
  components := componentsFor attributes t

theorem Established.issued_issueWith (h : Established M x y α a pp msk)
    {attributes : List (UInt32 × Attribute S.G1)}
    (hattributes : ∀ b ∈ attributes, b ∈ pp.registry.attributes.entries) (t : Scalar) :
    Issued M x y α a t pp (pp.issueWith msk attributes t) where
  k := M.first.add h.master (M.first.stands_multiple h.g1a t)
  l := M.second.stands_multiple h.g2 t
  component hc := by
    obtain ⟨b, hb, rfl⟩ := PublicParameters.exists_of_get?_componentsFor hc
    exact ⟨b, Registry.attribute?_eq_some_iff.mpr (hattributes _ hb),
      fun h hh => M.first.stands_multiple hh t⟩

/-- With an accepted master key a key is issued, unless it is for no attributes. -/
theorem PublicParameters.result_issue (haccepted : pp.checkMasterKey msk = .ok ())
    (attributes : List (UInt32 × Attribute S.G1)) (ρ : Randomness) :
    (pp.issue msk attributes).result ρ =
      if attributes.isEmpty then .error (.invalidAttribute .emptySet)
      else .ok (pp.issueWith msk attributes (Randomness.scalar.value ρ)) := by
  unfold issue
  split_ifs
  · rfl
  · rw [Trial.result_lift_bind, haccepted, ok_bind, Trial.result_bind_pure, Trial.result_draw]
    rfl

/-- A key for registered attributes is issued, whatever is drawn. -/
theorem Established.exists_issue (h : Established M x y α a pp msk)
    {attributes : List (UInt32 × Attribute S.G1)} (hne : attributes ≠ []) (ρ : Randomness) :
    ∃ t, (pp.issue msk attributes).result ρ = .ok (pp.issueWith msk attributes t) := by
  refine ⟨Randomness.scalar.value ρ, ?_⟩
  rw [PublicParameters.result_issue h.checkMasterKey_eq_ok, if_neg (by simpa using hne)]

/-- A key for names that are found is issued, whatever is drawn. -/
theorem Established.exists_issueForNames (h : Established M x y α a pp msk) {names : List String}
    {attributes : List (UInt32 × Attribute S.G1)} (hlookUp : pp.lookUpNames names = .ok attributes)
    (hne : attributes ≠ []) (ρ : Randomness) :
    ∃ t, (pp.issueForNames msk names).result ρ = .ok (pp.issueWith msk attributes t) := by
  obtain ⟨t, hissue⟩ := h.exists_issue hne ρ
  obtain ⟨ρ', hgives⟩ := Trial.exists_gives hissue
  have hrun : (pp.issueForNames msk names).Gives ρ (pp.issueWith msk attributes t) ρ' :=
    .bind (.lift hlookUp ρ) hgives
  exact ⟨t, hrun.result_eq⟩

/-- What a successful issuing gave. -/
theorem issue_eq {attributes : List (UInt32 × Attribute S.G1)} {ρ : Randomness}
    (h : (pp.issue msk attributes).result ρ = .ok sk) :
    sk = pp.issueWith msk attributes (Randomness.scalar.value ρ) := by
  obtain ⟨ρ', hgives⟩ := Trial.exists_gives h
  unfold PublicParameters.issue at hgives
  split_ifs at hgives
  · cases congrArg Prod.fst hgives
  · obtain ⟨_, ρ₁, hcheck, h₁⟩ := hgives.bind_inv
    obtain ⟨t, ρ₂, ht, h₂⟩ := h₁.bind_inv
    obtain rfl := hcheck.lift_state
    rw [Draw.value_eq ht.draw_inv]
    exact h₂.pure_inv

/-- Registrations do not change what keys are made of. -/
theorem Registrations.issueWith_eq {pp' : PublicParameters S} (hpp : Registrations pp' pp) :
    pp'.issueWith = pp.issueWith := by
  induction hpp with
  | refl => rfl
  | step _ hregister ih =>
    obtain ⟨k, registry, -, rfl⟩ := registry_of_register hregister
    exact ih

namespace PublicParameters

/-- The key was issued for some names or ids, under the parameters or before the last
registrations, and `t` is the scalar that was drawn for it. -/
inductive Issues (pp : PublicParameters S) (msk : MasterKey S) : Scalar → PrivateKey S → Prop where
  /-- For names. -/
  | forNames {pp' : PublicParameters S} {names : List String} {ρ : Randomness}
      {sk : PrivateKey S} (registers : Registrations pp' pp)
      (issued : (pp'.issueForNames msk names).result ρ = .ok sk) :
      Issues pp msk (Randomness.scalar.value ρ) sk
  /-- For ids. -/
  | forIds {pp' : PublicParameters S} {ids : List UInt32} {ρ : Randomness}
      {sk : PrivateKey S} (registers : Registrations pp' pp)
      (issued : (pp'.issueForIds msk ids).result ρ = .ok sk) :
      Issues pp msk (Randomness.scalar.value ρ) sk

theorem mem_entries_of_lookUpNames {names : List String}
    {attributes : List (UInt32 × Attribute S.G1)} (h : pp.lookUpNames names = .ok attributes) :
    ∀ b ∈ attributes, b ∈ pp.registry.attributes.entries := by
  intro b hb
  obtain ⟨name, -, hname⟩ := exists_of_mem_mapM h hb
  split at hname
  · next a hnamed =>
    cases hname
    exact (Registry.named?_eq_some_iff.mp hnamed).1
  · cases hname

theorem mem_entries_of_lookUpIds {ids : List UInt32}
    {attributes : List (UInt32 × Attribute S.G1)} (h : pp.lookUpIds ids = .ok attributes) :
    ∀ b ∈ attributes, b ∈ pp.registry.attributes.entries := by
  intro b hb
  obtain ⟨id, -, hid⟩ := exists_of_mem_mapM h hb
  split at hid
  · next a hattribute =>
    cases hid
    exact Registry.attribute?_eq_some_iff.mp hattribute
  · cases hid

/-- A key for names is one for registered attributes. -/
theorem exists_issue_of_names {names : List String} {ρ : Randomness}
    (h : (pp.issueForNames msk names).result ρ = .ok sk) :
    ∃ attributes, (∀ b ∈ attributes, b ∈ pp.registry.attributes.entries) ∧
      (pp.issue msk attributes).result ρ = .ok sk := by
  obtain ⟨ρ', hgives⟩ := Trial.exists_gives h
  obtain ⟨attributes, ρ₁, hlookUp, hissue⟩ := hgives.bind_inv
  obtain rfl := hlookUp.lift_state
  exact ⟨attributes, mem_entries_of_lookUpNames hlookUp.lift_inv, hissue.result_eq⟩

/-- A key for ids is one for registered attributes. -/
theorem exists_issue_of_ids {ids : List UInt32} {ρ : Randomness}
    (h : (pp.issueForIds msk ids).result ρ = .ok sk) :
    ∃ attributes, (∀ b ∈ attributes, b ∈ pp.registry.attributes.entries) ∧
      (pp.issue msk attributes).result ρ = .ok sk := by
  obtain ⟨ρ', hgives⟩ := Trial.exists_gives h
  obtain ⟨attributes, ρ₁, hlookUp, hissue⟩ := hgives.bind_inv
  obtain rfl := hlookUp.lift_state
  exact ⟨attributes, mem_entries_of_lookUpIds hlookUp.lift_inv, hissue.result_eq⟩

/-- An issued key is one for registered attributes and the scalar that was drawn. -/
theorem Issues.exists_issue (h : pp.Issues msk t sk) :
    ∃ pp' attributes ρ, Registrations pp' pp ∧
      (∀ b ∈ attributes, b ∈ pp'.registry.attributes.entries) ∧
      (pp'.issue msk attributes).result ρ = .ok sk ∧ t = Randomness.scalar.value ρ := by
  cases h with
  | forNames registers issued =>
    obtain ⟨attributes, hattributes, hissue⟩ := exists_issue_of_names issued
    exact ⟨_, attributes, _, registers, hattributes, hissue, rfl⟩
  | forIds registers issued =>
    obtain ⟨attributes, hattributes, hissue⟩ := exists_issue_of_ids issued
    exact ⟨_, attributes, _, registers, hattributes, hissue, rfl⟩

theorem Issues.exists_attributes (h : pp.Issues msk t sk) :
    ∃ attributes, (∀ b ∈ attributes, b ∈ pp.registry.attributes.entries) ∧
      sk = pp.issueWith msk attributes t := by
  obtain ⟨pp', attributes, ρ, registers, hattributes, hissue, ht⟩ := h.exists_issue
  refine ⟨attributes, fun b hb => registers.mem_entries b (hattributes b hb), ?_⟩
  rw [← registers.issueWith_eq, ht]
  exact issue_eq hissue

end PublicParameters

theorem Established.issued (h : Established M x y α a pp msk) (hsk : pp.Issues msk t sk) :
    Issued M x y α a t pp sk := by
  obtain ⟨attributes, hattributes, rfl⟩ := hsk.exists_attributes
  exact h.issued_issueWith hattributes t

/-- The check takes `K` and `L` together and asks whether the attributes are registered; it
does not see whether the components belong to `L`. -/
theorem Established.checkPrivateKey_eq_ok {τ : UInt32 → Scalar}
    (h : Established M x y α a pp msk) (hsk : Assembled M x y α a t τ pp sk) :
    pp.checkPrivateKey sk = .ok () := by
  have hpair : S.pair sk.k pp.g2 = S.gt.mul pp.blinding (S.pair pp.g1a sk.l) := by
    rw [M.pair hsk.k h.g2, M.pair h.g1a hsk.l, h.blinding, M.values.mul]
    congr 1
    simp only [map_add, map_smul, LinearMap.add_apply, LinearMap.smul_apply]
  have hknown : sk.components.ids.find? (fun id => !pp.knows id) = none := by
    rw [List.find?_eq_none]
    intro id hid
    obtain ⟨e, he, rfl⟩ := List.mem_map.mp hid
    obtain ⟨b, hb, -⟩ := hsk.component (IdMap.get?_eq_some_iff.mpr he)
    simp [PublicParameters.knows, hb]
  unfold PublicParameters.checkPrivateKey
  rw [if_pos hpair, hknown]

end AttributeEncryption
