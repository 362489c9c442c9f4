import AttributeEncryption.Proofs.Scheme.Recovery
import AttributeEncryption.Scheme.Payload

/-!
# What the checks refuse

A private key is refused exactly if its points do not go together or one of its attributes is
not registered (`checkPrivateKey_cases`), and a header exactly if it has more or fewer pairs than
rows or one of its labels is not registered (`checkHeader_cases`). Headers that are made are not
refused (`checkHeader_of_encrypt`, `checkHeader_of_wrap`), and neither are keys that are issued
if the points they are made from stand for elements of the groups (`checkPrivateKey_of_issue`).
-/

open scoped Fin.CommRing

namespace AttributeEncryption

variable {S : Suite}

namespace PublicParameters

variable {pp : PublicParameters S} {sk : PrivateKey S} {h : Header S}

/-! ## Reasons to refuse -/

/-- The points of the key do not go together, or one of its attributes is not registered. -/
def RefusesKey (pp : PublicParameters S) (sk : PrivateKey S) : Prop :=
  S.pair sk.k pp.g2 ≠ S.gt.mul pp.blinding (S.pair pp.g1a sk.l) ∨
    ∃ id ∈ sk.components.ids, pp.knows id = false

/-- The header has more or fewer pairs than rows, or one of its labels is not registered. -/
def RefusesHeader (pp : PublicParameters S) (h : Header S) : Prop :=
  h.pairs.length ≠ h.matrix.rowCount ∨ ∃ id ∈ h.matrix.labels, pp.knows id = false

/-- The first id that is not registered, if there is one. -/
theorem find?_unknown (pp : PublicParameters S) (ids : List UInt32) :
    (∃ id, (ids.find? fun id => !pp.knows id) = some id ∧ ∃ id ∈ ids, pp.knows id = false) ∨
      (ids.find? fun id => !pp.knows id) = none ∧ ¬ ∃ id ∈ ids, pp.knows id = false := by
  cases hfind : ids.find? fun id => !pp.knows id with
  | none =>
    refine Or.inr ⟨rfl, ?_⟩
    rintro ⟨id, hid, hunknown⟩
    have hknown := List.find?_eq_none.mp hfind id hid
    rw [hunknown] at hknown
    exact hknown rfl
  | some id =>
    have hunknown := List.find?_some hfind
    exact Or.inl ⟨id, rfl, id, List.mem_of_find?_eq_some hfind, by simpa using hunknown⟩

/-- The check of a key. -/
theorem checkPrivateKey_cases (pp : PublicParameters S) (sk : PrivateKey S) :
    (∃ fault, pp.checkPrivateKey sk = .error (.invalidPrivateKey fault)) ∧ pp.RefusesKey sk ∨
      pp.checkPrivateKey sk = .ok () ∧ ¬ pp.RefusesKey sk := by
  unfold checkPrivateKey RefusesKey
  split_ifs with hpair
  · rcases pp.find?_unknown sk.components.ids with ⟨id, hid, hunknown⟩ | ⟨hid, hknown⟩
    · rw [hid]
      exact Or.inl ⟨⟨_, rfl⟩, Or.inr hunknown⟩
    · rw [hid]
      exact Or.inr ⟨rfl, not_or.mpr ⟨not_not.mpr hpair, hknown⟩⟩
  · exact Or.inl ⟨⟨_, rfl⟩, Or.inl hpair⟩

/-- The check of a header. It does not ask for a component of each row. -/
theorem checkHeader_cases (pp : PublicParameters S) (h : Header S) :
    (∃ fault, pp.checkHeader h = .error (.invalidCiphertext fault) ∧
        ∀ row, fault ≠ .bareRow row) ∧ pp.RefusesHeader h ∨
      pp.checkHeader h = .ok () ∧ ¬ pp.RefusesHeader h := by
  unfold checkHeader RefusesHeader
  split_ifs with hlength
  · rcases pp.find?_unknown h.matrix.labels with ⟨id, hid, hunknown⟩ | ⟨hid, hknown⟩
    · rw [hid]
      exact Or.inl ⟨⟨_, rfl, fun row => nofun⟩, Or.inr hunknown⟩
    · rw [hid]
      exact Or.inr ⟨rfl, not_or.mpr ⟨not_not.mpr hlength, hknown⟩⟩
  · exact Or.inl ⟨⟨_, rfl, fun row => nofun⟩, Or.inl hlength⟩

theorem checkPrivateKey_eq_ok_iff : pp.checkPrivateKey sk = .ok () ↔ ¬ pp.RefusesKey sk := by
  rcases pp.checkPrivateKey_cases sk with ⟨⟨fault, hcheck⟩, hrefused⟩ | ⟨hcheck, haccepted⟩
  · simp [hcheck, hrefused]
  · simp [hcheck, haccepted]

theorem checkHeader_eq_ok_iff : pp.checkHeader h = .ok () ↔ ¬ pp.RefusesHeader h := by
  rcases pp.checkHeader_cases h with ⟨⟨fault, hcheck, -⟩, hrefused⟩ | ⟨hcheck, haccepted⟩
  · simp [hcheck, hrefused]
  · simp [hcheck, haccepted]

/-! ## Headers that are made -/

theorem checkHeader_of_encapsulate {matrix : ShareMatrix} {ρ : Randomness} {multiplier : S.Gt}
    (hmade : (pp.encapsulate matrix).result ρ = .ok (h, multiplier)) :
    pp.checkHeader h = .ok () := by
  obtain ⟨attributes, secret, rest, hattributes, -, -, hscalars, rfl, -⟩ := exists_headerWith hmade
  exact checkHeader_eq_ok (resolves_of_lookUpIds hattributes) hscalars

theorem checkHeader_of_encrypt {matrix : ShareMatrix} {data : List UInt8} {ρ : Randomness}
    {ct : Ciphertext S} (hmade : (pp.encrypt matrix data).result ρ = .ok ct) :
    pp.checkHeader ct.header = .ok () := by
  obtain ⟨ρ', hgives⟩ := Trial.exists_gives hmade
  obtain ⟨⟨header, multiplier⟩, ρ₁, hheader, hpure⟩ := hgives.bind_inv
  rw [hpure.pure_inv]
  exact checkHeader_of_encapsulate hheader.result_eq

theorem checkHeader_of_wrap {matrix : ShareMatrix} {data : List UInt8} {ρ : Randomness}
    {ct : Ciphertext S} (hmade : (pp.wrap matrix data).result ρ = .ok ct) :
    pp.checkHeader ct.header = .ok () := by
  obtain ⟨ρ', hgives⟩ := Trial.exists_gives hmade
  obtain ⟨⟨header, multiplier⟩, ρ₁, hheader, hrest⟩ := hgives.bind_inv
  obtain ⟨content, ρ₂, -, hpure⟩ := hrest.bind_inv
  rw [hpure.pure_inv]
  exact checkHeader_of_encapsulate hheader.result_eq

end PublicParameters

/-! ## Keys that are issued -/

section Issue

variable {X₁ X₂ X : Type} [AddCommGroup X₁] [Module Scalar X₁] [AddCommGroup X₂]
  [Module Scalar X₂] [AddCommGroup X] [Module Scalar X]

/-- The points that keys are made from stand for elements of the groups. -/
structure Suite.Model.Places (M : S.Model X₁ X₂ X) (pp : PublicParameters S)
    (msk : MasterKey S) : Prop where
  g1a : ∃ x, M.first.stands pp.g1a x
  g2 : ∃ y, M.second.stands pp.g2 y
  master : ∃ x, M.first.stands msk.point x

namespace PublicParameters

variable {pp : PublicParameters S} {msk : MasterKey S} {sk : PrivateKey S}

theorem checkMasterKey_of_issue {attributes : List (UInt32 × Attribute S.G1)} {ρ : Randomness}
    (hmade : (pp.issue msk attributes).result ρ = .ok sk) : pp.checkMasterKey msk = .ok () := by
  obtain ⟨ρ', hgives⟩ := Trial.exists_gives hmade
  unfold issue at hgives
  split_ifs at hgives
  · cases congrArg Prod.fst hgives
  · obtain ⟨_, ρ₁, hcheck, -⟩ := hgives.bind_inv
    exact hcheck.lift_inv

theorem blinding_of_checkMasterKey (hcheck : pp.checkMasterKey msk = .ok ()) :
    S.pair msk.point pp.g2 = pp.blinding := by
  unfold checkMasterKey at hcheck
  split_ifs at hcheck with hpair
  exact hpair

/-- A key that is issued for registered attributes passes the check. -/
theorem checkPrivateKey_of_issue {M : S.Model X₁ X₂ X} (hplaces : M.Places pp msk)
    {attributes : List (UInt32 × Attribute S.G1)}
    (hattributes : ∀ b ∈ attributes, b ∈ pp.registry.attributes.entries) {ρ : Randomness}
    (hmade : (pp.issue msk attributes).result ρ = .ok sk) : pp.checkPrivateKey sk = .ok () := by
  have hblinding := blinding_of_checkMasterKey (checkMasterKey_of_issue hmade)
  obtain ⟨⟨u, hu⟩, ⟨y, hy⟩, ⟨z, hz⟩⟩ := hplaces
  obtain rfl := issue_eq hmade
  refine ((pp.checkPrivateKey_cases _).resolve_left ?_).1
  rintro ⟨-, hpair | ⟨id, hid, hunknown⟩⟩
  · refine hpair ?_
    rw [← hblinding]
    unfold issueWith
    simp only
    rw [M.pair (M.first.add hz (M.first.stands_multiple hu _)) hy, M.pair hz hy,
      M.pair hu (M.second.stands_multiple hy _), M.values.mul]
    congr 1
    simp only [map_add, map_smul, LinearMap.add_apply, LinearMap.smul_apply]
  · obtain ⟨e, he, rfl⟩ := List.mem_map.mp hid
    obtain ⟨b, hb, -⟩ := exists_of_get?_componentsFor (IdMap.get?_eq_some_iff.mpr he)
    have hregistered := Registry.attribute?_eq_some_iff.mpr (hattributes _ hb)
    rw [knows, hregistered] at hunknown
    cases hunknown

/-- A key that is issued for names or ids passes the check. -/
theorem checkPrivateKey_of_issueFor {M : S.Model X₁ X₂ X} (hplaces : M.Places pp msk)
    {ρ : Randomness}
    (hmade : (∃ names, (pp.issueForNames msk names).result ρ = .ok sk) ∨
      ∃ ids, (pp.issueForIds msk ids).result ρ = .ok sk) : pp.checkPrivateKey sk = .ok () := by
  rcases hmade with ⟨names, hmade⟩ | ⟨ids, hmade⟩
  · obtain ⟨attributes, hattributes, hissue⟩ := exists_issue_of_names hmade
    exact checkPrivateKey_of_issue hplaces hattributes hissue
  · obtain ⟨attributes, hattributes, hissue⟩ := exists_issue_of_ids hmade
    exact checkPrivateKey_of_issue hplaces hattributes hissue

end PublicParameters

end Issue

end AttributeEncryption
