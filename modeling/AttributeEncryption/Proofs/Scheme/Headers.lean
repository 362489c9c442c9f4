import AttributeEncryption.Proofs.Scheme.Keys
import AttributeEncryption.Proofs.SpanProgram.Shares
import AttributeEncryption.Scheme.Header

/-!
# Headers

A header is made from a vector of scalars, whose first one is the secret, and one scalar for
each row (`headerWith`). Encapsulation succeeds for registered labels, whatever is drawn
(`gives_encapsulate`), and every header comes from the vector and the scalars that were drawn
for it (`exists_headerWith`).
-/

open scoped Fin.CommRing

namespace AttributeEncryption

variable {S : Suite} {X₁ X₂ X : Type} [AddCommGroup X₁] [Module Scalar X₁] [AddCommGroup X₂]
  [Module Scalar X₂] [AddCommGroup X] [Module Scalar X] {M : S.Model X₁ X₂ X}
  {x : X₁} {y : X₂} {α a t : Scalar} {τ : UInt32 → Scalar} {pp : PublicParameters S}
  {msk : MasterKey S} {sk : PrivateKey S}

theorem ShareMatrix.length_rows (m : ShareMatrix) : m.rows.length = m.rowCount :=
  rfl

/-! ## Encapsulation -/

namespace PublicParameters

/-- The pairs of the rows for drawn scalars. -/
def pairsWith (pp : PublicParameters S) (rows : List ((UInt32 × Attribute S.G1) × Scalar))
    (scalars : List Scalar) : List (S.G1 × S.G2) :=
  List.zipWith (fun row r =>
    (S.sub1 (S.g1.multiple pp.g1a row.2) (S.g1.multiple row.1.2.point r), S.g2.multiple pp.g2 r))
    rows scalars

/-- The header for a drawn vector and drawn scalars. -/
def headerWith (pp : PublicParameters S) (matrix : ShareMatrix)
    (attributes : List (UInt32 × Attribute S.G1)) (secret : Scalar) (rest scalars : List Scalar) :
    Header S where
  matrix := matrix
  base := S.g2.multiple pp.g2 secret
  pairs := pp.pairsWith (attributes.zip (matrix.rows.map (dot · (secret :: rest)))) scalars

@[simp] theorem matrix_headerWith (pp : PublicParameters S) (matrix : ShareMatrix)
    (attributes : List (UInt32 × Attribute S.G1)) (secret : Scalar) (rest scalars : List Scalar) :
    (pp.headerWith matrix attributes secret rest scalars).matrix = matrix :=
  rfl

/-- Drawing the pairs of some rows draws one scalar for each of them. -/
theorem run_drawPairs (pp : PublicParameters S)
    (rows : List ((UInt32 × Attribute S.G1) × Scalar)) (ρ : Randomness) :
    ∃ scalars ρ', scalars.length = rows.length ∧
      StateT.run (Randomness.scalars rows.length) ρ = (scalars, ρ') ∧
      StateT.run (pp.drawPairs rows) ρ = (pp.pairsWith rows scalars, ρ') := by
  induction rows generalizing ρ with
  | nil => exact ⟨[], ρ, rfl, rfl, rfl⟩
  | cons row rows ih =>
    obtain ⟨⟨id, b⟩, share⟩ := row
    obtain ⟨r, ρ₁, hr⟩ := Randomness.exists_run Randomness.scalar ρ
    obtain ⟨scalars, ρ₂, hlength, hscalars, hrows⟩ := ih ρ₁
    refine ⟨r :: scalars, ρ₂, by simp [hlength], ?_, ?_⟩
    · rw [List.length_cons, Randomness.scalars, Draw.run_bind hr, Draw.run_bind hscalars]
      rfl
    · rw [drawPairs, Draw.run_bind hr]
      exact (Draw.run_bind hrows).trans rfl

/-- The attributes are those that are registered under the ids. -/
def Resolves (pp : PublicParameters S) (ids : List UInt32)
    (attributes : List (UInt32 × Attribute S.G1)) : Prop :=
  List.Forall₂ (fun id b => pp.registry.attribute? id = some b.2) ids attributes

theorem Resolves.attribute?_getElem {ids : List UInt32}
    {attributes : List (UInt32 × Attribute S.G1)} (h : pp.Resolves ids attributes) {i : ℕ}
    (hi : i < ids.length) (hi' : i < attributes.length) :
    pp.registry.attribute? ids[i] = some attributes[i].2 :=
  List.Forall₂.get h hi hi'

/-- Registered ids are found. -/
theorem exists_lookUpIds {ids : List UInt32}
    (h : ∀ id ∈ ids, ∃ b, pp.registry.attribute? id = some b) :
    ∃ attributes, pp.lookUpIds ids = .ok attributes ∧ pp.Resolves ids attributes := by
  refine exists_mapM_eq_ok fun id hid => ?_
  obtain ⟨b, hb⟩ := h id hid
  refine ⟨(id, b), ?_, hb⟩
  rw [hb]

/-- The scalars of the rows of a header are drawn after the vector. -/
def rowScalars (matrix : ShareMatrix) : Draw (List Scalar) := do
  let _ ← Randomness.scalars matrix.columns
  Randomness.scalars matrix.rowCount

/-- What encapsulation gives for registered labels. -/
theorem gives_encapsulate {matrix : ShareMatrix} {attributes : List (UInt32 × Attribute S.G1)}
    (hattributes : pp.lookUpIds matrix.labels = .ok attributes)
    (hlength : attributes.length = matrix.rowCount) (ρ : Randomness) :
    ∃ secret rest ρ', (Randomness.scalars matrix.columns).value ρ = secret :: rest ∧
      (secret :: rest).length = matrix.columns ∧
      ((rowScalars matrix).value ρ).length = matrix.rowCount ∧
      (pp.encapsulate matrix).Gives ρ
        (pp.headerWith matrix attributes secret rest ((rowScalars matrix).value ρ),
          S.gt.pow pp.blinding secret) ρ' := by
  obtain ⟨vector, ρ₁, hvector, hdraw⟩ := Randomness.run_scalars matrix.columns ρ
  cases vector with
  | nil =>
    have hwidth : 0 < matrix.columns := matrix.width_pos
    rw [List.length_nil] at hvector
    omega
  | cons secret rest =>
    have hshares : shares matrix.rows (secret :: rest) =
        .ok (matrix.rows.map (dot · (secret :: rest))) :=
      shares_eq_ok fun row hrow => (matrix.rectangular row hrow).trans hvector.symm
    obtain ⟨scalars, ρ₂, hscalars, hdrawn, hpairs⟩ := pp.run_drawPairs
      (attributes.zip (matrix.rows.map (dot · (secret :: rest)))) ρ₁
    rw [List.length_zip, List.length_map, hlength, matrix.length_rows, Nat.min_self]
      at hscalars hdrawn
    have hrowScalars : (rowScalars matrix).value ρ = scalars :=
      Draw.value_eq ((Draw.run_bind hdraw).trans hdrawn)
    refine ⟨secret, rest, ρ₂, Draw.value_eq hdraw, hvector, by rw [hrowScalars, hscalars], ?_⟩
    rw [hrowScalars]
    exact .bind (.lift hattributes ρ) (.bind (.draw hdraw) (.bind (.lift hshares ρ₁)
      (.bind (.draw hpairs) (.pure _ _))))

/-- Encapsulation succeeds for registered labels, whatever is drawn. -/
theorem exists_encapsulate {matrix : ShareMatrix} {attributes : List (UInt32 × Attribute S.G1)}
    (hattributes : pp.lookUpIds matrix.labels = .ok attributes)
    (hlength : attributes.length = matrix.rowCount) (ρ : Randomness) :
    ∃ secret rest scalars ρ', (secret :: rest).length = matrix.columns ∧
      scalars.length = matrix.rowCount ∧
      (pp.encapsulate matrix).Gives ρ
        (pp.headerWith matrix attributes secret rest scalars, S.gt.pow pp.blinding secret) ρ' := by
  obtain ⟨secret, rest, ρ', -, hvector, hscalars, hgives⟩ := gives_encapsulate hattributes hlength ρ
  exact ⟨secret, rest, _, ρ', hvector, hscalars, hgives⟩

/-- Ids that were found are registered. -/
theorem resolves_of_lookUpIds {ids : List UInt32} {attributes : List (UInt32 × Attribute S.G1)}
    (h : pp.lookUpIds ids = .ok attributes) : pp.Resolves ids attributes := by
  refine (forall₂_of_mapM_eq_ok h).imp fun id b hid => ?_
  split at hid
  · next a hattribute =>
    cases hid
    exact hattribute
  · cases hid

/-- What a successful encapsulation gave. -/
theorem exists_headerWith {matrix : ShareMatrix} {ρ : Randomness} {header : Header S}
    {multiplier : S.Gt} (h : (pp.encapsulate matrix).result ρ = .ok (header, multiplier)) :
    ∃ attributes secret rest, pp.lookUpIds matrix.labels = .ok attributes ∧
      (Randomness.scalars matrix.columns).value ρ = secret :: rest ∧
      (secret :: rest).length = matrix.columns ∧
      ((rowScalars matrix).value ρ).length = matrix.rowCount ∧
      header = pp.headerWith matrix attributes secret rest ((rowScalars matrix).value ρ) ∧
      multiplier = S.gt.pow pp.blinding secret := by
  obtain ⟨ρ', hgives⟩ := Trial.exists_gives h
  obtain ⟨attributes, ρ₁, hlookUp, -⟩ := hgives.bind_inv
  have hlength : attributes.length = matrix.rowCount :=
    (resolves_of_lookUpIds hlookUp.lift_inv).length_eq.symm.trans matrix.labels_length
  obtain ⟨secret, rest, ρ₂, hdrawn, hvector, hscalars, hrun⟩ :=
    gives_encapsulate hlookUp.lift_inv hlength ρ
  obtain ⟨hheader, hmultiplier⟩ := Prod.mk.inj (hrun.eq_of_result_eq h)
  exact ⟨attributes, secret, rest, hlookUp.lift_inv, hdrawn, hvector, hscalars, hheader,
    hmultiplier⟩

end PublicParameters

end AttributeEncryption
