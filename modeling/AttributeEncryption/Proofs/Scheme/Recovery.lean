import AttributeEncryption.Proofs.Elimination.Exactness
import AttributeEncryption.Proofs.GroupOrder
import AttributeEncryption.Proofs.Scheme.Headers
import AttributeEncryption.Proofs.SpanProgram.Reconstruction

/-!
# What keys recover

The term of each held row is the share of the row times `a · t` in the exponent, and the points
of the attribute cancel if its component is for the scalar `t` of the key (`mul_pair_pair`). So
recovery multiplies up the weighted sum of the shares and of what does not cancel, whatever the
matrix is (`recover_eq_of_assembled`). With an issued key all points cancel (`recover_eq_ok`).

The weights have a common scale, which has an inverse (`Reconstruction.exists_scale_inverse`).
So every issued key recovers a power of `e(g₁, g₂)` that the weighted sum of the rows
determines, or there is an overflow (`recover_of_issued`).
-/

open scoped Fin.CommRing

namespace AttributeEncryption

variable {S : Suite} {X₁ X₂ X : Type} [AddCommGroup X₁] [Module Scalar X₁] [AddCommGroup X₂]
  [Module Scalar X₂] [AddCommGroup X] [Module Scalar X] {M : S.Model X₁ X₂ X}
  {x : X₁} {y : X₂} {α a t : Scalar} {τ : UInt32 → Scalar} {pp : PublicParameters S}
  {msk : MasterKey S} {sk : PrivateKey S}

namespace PublicParameters

/-! ## Terms of rows -/

/-- The term of a row is its share times `a · t`, and the point of the attribute times the
difference of the scalars of its component and of the key. -/
theorem mul_pair_pair (h : Established M x y α a pp msk) {l : S.G2} (hl : M.second.stands l (t • y))
    {point component : S.G1} {z : X₁} {u : Scalar} (hpoint : M.first.stands point z)
    (hcomponent : M.first.stands component (u • z)) (share r : Scalar) :
    S.gt.mul
        (S.pair (S.sub1 (S.g1.multiple pp.g1a share) (S.g1.multiple point r)) l)
        (S.pair component (S.g2.multiple pp.g2 r)) =
      M.values.value ((share * (a * t)) • M.e x y + (r * (u - t)) • M.e z y) := by
  have hc := M.stands_sub1 (M.first.stands_multiple h.g1a share) (M.first.stands_multiple hpoint r)
  rw [M.pair hc hl, M.pair hcomponent (M.second.stands_multiple h.g2 r), M.values.mul]
  congr 1
  simp only [map_sub, map_smul, LinearMap.sub_apply, LinearMap.smul_apply]
  module

/-- Terms to the power of their weights over the scale, multiplied up. -/
def weightedTerms (scaleInverse : Scalar) (weights : List ℤ) (terms : List X) : X :=
  (List.zipWith (fun (w : ℤ) z => ((w : Scalar) * scaleInverse) • z) weights terms).sum

@[simp] theorem weightedTerms_nil_left (scaleInverse : Scalar) (terms : List X) :
    weightedTerms scaleInverse [] terms = 0 :=
  rfl

@[simp] theorem weightedTerms_nil_right (scaleInverse : Scalar) (weights : List ℤ) :
    weightedTerms scaleInverse weights ([] : List X) = 0 := by
  simp [weightedTerms]

@[simp] theorem weightedTerms_cons (scaleInverse : Scalar) (w : ℤ) (weights : List ℤ) (z : X)
    (terms : List X) : weightedTerms scaleInverse (w :: weights) (z :: terms) =
      ((w : Scalar) * scaleInverse) • z + weightedTerms scaleInverse weights terms :=
  rfl

theorem weightedTerms_add (scaleInverse : Scalar) :
    ∀ {weights : List ℤ} {terms terms' : List X}, terms.length = terms'.length →
      weightedTerms scaleInverse weights (List.zipWith (· + ·) terms terms') =
        weightedTerms scaleInverse weights terms + weightedTerms scaleInverse weights terms'
  | [], terms, terms', _ => by simp
  | w :: weights, [], [], _ => by simp
  | w :: weights, z :: terms, z' :: terms', h => by
    rw [List.zipWith_cons_cons, weightedTerms_cons, weightedTerms_cons, weightedTerms_cons,
      weightedTerms_add scaleInverse (by simpa using h), smul_add]
    abel

/-- Weighted shares add up to the weighted sum of the shares. -/
theorem weightedTerms_shares (z : X) (k scaleInverse : Scalar) (vector : List Scalar) :
    ∀ {weights : List ℤ} {rows : List (List Int32)},
      weightedTerms scaleInverse weights (rows.map fun row => (dot row vector * k) • z) =
        (scaleInverse * k * (List.zipWith (fun (w : ℤ) row => (w : Scalar) * dot row vector)
          weights rows).sum) • z
  | [], rows => by simp
  | w :: weights, [] => by simp
  | w :: weights, row :: rows => by
    rw [List.map_cons, weightedTerms_cons, weightedTerms_shares z k scaleInverse vector,
      List.zipWith_cons_cons, List.sum_cons]
    module

theorem weightedTerms_eq_zero {scaleInverse : Scalar} :
    ∀ {weights : List ℤ} {terms : List X}, (∀ z ∈ terms, z = 0) →
      weightedTerms scaleInverse weights terms = 0
  | [], terms, _ => by simp
  | w :: weights, [], _ => by simp
  | w :: weights, z :: terms, h => by
    obtain ⟨rfl, hterms⟩ := List.forall_mem_cons.mp h
    rw [weightedTerms_cons, weightedTerms_eq_zero hterms, smul_zero, add_zero]

/-! ## Recovery -/

/-- Gathering multiplies up the terms of the held rows, each to the power of its weight. -/
theorem gather_eq_ok (M : S.Model X₁ X₂ X) (scaleInverse : Scalar) {terms : List X}
    {rows : List (ℤ × UInt32 × S.G1 × S.G2)}
    (h : List.Forall₂ (fun row z => (sk.holds row.2.1 = false → row.1 = 0) ∧
      ∀ c, sk.components.get? row.2.1 = some c →
        S.gt.mul (S.pair row.2.2.1 sk.l) (S.pair c row.2.2.2) = M.values.value z) rows terms)
    (row : ℕ) (start : X) :
    gather sk scaleInverse row (M.values.value start) rows =
      .ok (M.values.value (start + weightedTerms scaleInverse (rows.map (·.1)) terms)) := by
  induction h generalizing row start with
  | nil => simp [gather]
  | @cons r z rows terms hr _ ih =>
    obtain ⟨weight, id, c, d⟩ := r
    obtain ⟨hzero, hterm⟩ := hr
    simp only at hzero hterm
    rw [List.map_cons, weightedTerms_cons, ← add_assoc]
    by_cases hskip : weight = 0
    · rw [gather, if_pos (by simp [hskip]), ih, hskip, Int.cast_zero, zero_mul, zero_smul, add_zero]
    · have hholds : sk.holds id = true := by
        by_contra hnot
        exact hskip (hzero (by simpa using hnot))
      obtain ⟨component, hcomponent⟩ := Option.isSome_iff_exists.mp hholds
      rw [gather, if_neg (by simp [hskip, hholds]), hcomponent]
      simp only
      rw [hterm component hcomponent, M.mulSignedPow_value]
      exact ih _ _

/-- What the terms of rows have beyond their shares if the component of an attribute exceeds
the scalar of the key. -/
def foreignTerms (M : S.Model X₁ X₂ X) (y : X₂) (excess : UInt32 → Scalar) (labels : List UInt32)
    (elements : List X₁) (scalars : List Scalar) : List X :=
  List.zipWith (fun p r => (r * excess p.1) • M.e p.2 y) (labels.zip elements) scalars

/-- The points of registered attributes stand for some elements. -/
theorem Resolves.exists_elements (h : Established M x y α a pp msk) {ids : List UInt32}
    {attributes : List (UInt32 × Attribute S.G1)} (hattributes : pp.Resolves ids attributes) :
    ∃ elements, List.Forall₂ (fun b z => M.first.stands b.2.point z) attributes elements := by
  induction hattributes with
  | nil => exact ⟨[], .nil⟩
  | cons hb _ ih =>
    obtain ⟨elements, helements⟩ := ih
    obtain ⟨z, hz⟩ := h.attributes (Registry.attribute?_eq_some_iff.mp hb)
    exact ⟨z :: elements, .cons hz helements⟩

section Recover

variable {matrix : ShareMatrix} {attributes : List (UInt32 × Attribute S.G1)} {secret : Scalar}
  {rest scalars : List Scalar} {elements : List X₁}

theorem length_pairs_headerWith (pp : PublicParameters S) (secret : Scalar) (rest : List Scalar)
    (hattributes : attributes.length = matrix.rowCount)
    (hscalars : scalars.length = matrix.rowCount) :
    (pp.headerWith matrix attributes secret rest scalars).pairs.length = matrix.rowCount := by
  simp only [headerWith, pairsWith, List.length_zipWith, List.length_zip, List.length_map,
    hattributes, hscalars, matrix.length_rows, Nat.min_self]

theorem checkHeader_eq_ok (hattributes : pp.Resolves matrix.labels attributes)
    (hscalars : scalars.length = matrix.rowCount) :
    pp.checkHeader (pp.headerWith matrix attributes secret rest scalars) = .ok () := by
  have hlength : attributes.length = matrix.rowCount :=
    hattributes.length_eq.symm.trans matrix.labels_length
  have hknown : matrix.labels.find? (fun id => !pp.knows id) = none := by
    rw [List.find?_eq_none]
    intro id hid
    obtain ⟨i, hi, rfl⟩ := List.getElem_of_mem hid
    simp [knows, hattributes.attribute?_getElem hi (hattributes.length_eq ▸ hi)]
  unfold checkHeader
  rw [matrix_headerWith, if_pos (length_pairs_headerWith pp secret rest hlength hscalars), hknown]

/-- Rows that the key does not hold have weight 0, and the terms of the others are multiples
of their shares but for what does not cancel. -/
theorem forall₂_terms (secret : Scalar) (rest : List Scalar)
    (h : Established M x y α a pp msk) (hsk : Assembled M x y α a t τ pp sk)
    (hattributes : pp.Resolves matrix.labels attributes)
    (helements : List.Forall₂ (fun b z => M.first.stands b.2.point z) attributes elements)
    (hscalars : scalars.length = matrix.rowCount) {w : Weights}
    (hw : Reconstruction matrix.rows (matrix.unavailable sk.holds) w) :
    List.Forall₂ (fun row z => (sk.holds row.2.1 = false → row.1 = 0) ∧
      ∀ c, sk.components.get? row.2.1 = some c →
        S.gt.mul (S.pair row.2.2.1 sk.l) (S.pair c row.2.2.2) = M.values.value z)
      (w.coefficients.zip
        (matrix.labels.zip (pp.headerWith matrix attributes secret rest scalars).pairs))
      (List.zipWith (· + ·)
        (matrix.rows.map fun row => (dot row (secret :: rest) * (a * t)) • M.e x y)
        (foreignTerms M y (fun id => τ id - t) matrix.labels elements scalars)) := by
  have hrows := matrix.length_rows
  have hlabels := matrix.labels_length
  have hlength : attributes.length = matrix.rowCount := hattributes.length_eq.symm.trans hlabels
  have hlength' : elements.length = matrix.rowCount := helements.length_eq.symm.trans hlength
  have hpairs := length_pairs_headerWith pp secret rest hlength hscalars
  have hcoefficients := hw.length_eq
  rw [List.forall₂_iff_get]
  refine ⟨by simp [foreignTerms, hpairs, hcoefficients, hlabels, hrows, hlength', hscalars],
    fun i hi hi' => ?_⟩
  have hi₀ : i < matrix.rowCount := by
    simp only [List.length_zipWith, List.length_map] at hi'
    omega
  have hi₁ : i < matrix.labels.length := by omega
  have hi₂ : i < attributes.length := by omega
  have hi₃ : i < scalars.length := by omega
  have hi₄ : i < elements.length := by omega
  have hattribute := hattributes.attribute?_getElem hi₁ hi₂
  have helement : M.first.stands attributes[i].2.point elements[i] := helements.get hi₂ hi₄
  simp only [foreignTerms, List.get_eq_getElem, List.getElem_zip, List.getElem_map,
    List.getElem_zipWith]
  refine ⟨fun hheld => ?_, fun c hc => ?_⟩
  · have hzero := hw.zero_of_mem i (ShareMatrix.mem_unavailable_iff.mpr
      ⟨_, List.getElem?_eq_getElem hi₁, hheld⟩)
    rwa [Weights.coefficient, List.getD_eq_getElem _ _ (by omega)] at hzero
  · obtain ⟨b, hb, hcomponent⟩ := hsk.component hc
    obtain rfl : b = attributes[i].2 := Option.some.inj (hb.symm.trans hattribute)
    have hterm := mul_pair_pair h hsk.l helement (hcomponent _ helement)
      (dot matrix.rows[i] (secret :: rest)) scalars[i]
    simp only [headerWith, pairsWith, List.getElem_zipWith, List.getElem_zip, List.getElem_map]
    exact hterm

/-- Whatever the matrix is, if its weights exist for the rows that the key holds, recovery
gives the multiplier but for the difference between the secret and the weighted sum of the
shares, and but for what does not cancel. -/
theorem recover_eq_of_assembled (h : Established M x y α a pp msk)
    (hsk : Assembled M x y α a t τ pp sk) (hattributes : pp.Resolves matrix.labels attributes)
    (helements : List.Forall₂ (fun b z => M.first.stands b.2.point z) attributes elements)
    (hscalars : scalars.length = matrix.rowCount) {w : Weights} {scaleInverse : Scalar}
    (hw : matrix.weights (matrix.unavailable sk.holds) = .ok w)
    (hinverse : (Scalar.ofNat w.scale.natAbs).inverse? = some scaleInverse) :
    pp.recover (pp.headerWith matrix attributes secret rest scalars) sk =
      .ok (M.values.value ((α * secret + a * t * (secret - scaleInverse *
        (List.zipWith (fun (w : ℤ) row => (w : Scalar) * dot row (secret :: rest))
          w.coefficients matrix.rows).sum)) • M.e x y -
        weightedTerms scaleInverse w.coefficients
          (foreignTerms M y (fun id => τ id - t) matrix.labels elements scalars))) := by
  have hreconstruction := (overflowOr_reconstructionWeights (matrix.unavailable sk.holds)
    matrix.width_pos matrix.rectangular).of_eq_ok hw
  have hlabels := matrix.labels_length
  have hlength : attributes.length = matrix.rowCount := hattributes.length_eq.symm.trans hlabels
  have hlength' : elements.length = matrix.rowCount := helements.length_eq.symm.trans hlength
  have hpairs := length_pairs_headerWith pp secret rest hlength hscalars
  have hcoefficients := hreconstruction.length_eq
  have hgather := gather_eq_ok M scaleInverse
    (forall₂_terms secret rest h hsk hattributes helements hscalars hreconstruction) 0 0
  have hfst : (w.coefficients.zip (matrix.labels.zip
      (pp.headerWith matrix attributes secret rest scalars).pairs)).map (·.1) = w.coefficients :=
    List.map_fst_zip (by simp [hpairs, hcoefficients, hlabels, matrix.length_rows])
  have hforeign : (foreignTerms M y (fun id => τ id - t) matrix.labels elements scalars).length =
      matrix.rowCount := by
    simp only [foreignTerms, List.length_zipWith, List.length_zip, hlabels, hlength', hscalars,
      matrix.length_rows, Nat.min_self]
  rw [hfst, zero_add, weightedTerms_add _ (by rw [List.length_map, hforeign, matrix.length_rows]),
    weightedTerms_shares, ← M.values.one] at hgather
  have hnumerator : S.pair sk.k (S.g2.multiple pp.g2 secret) =
      M.values.value ((α * secret + a * t * secret) • M.e x y) := by
    rw [M.pair hsk.k (M.second.stands_multiple h.g2 secret)]
    congr 1
    simp only [map_add, map_smul, LinearMap.add_apply, LinearMap.smul_apply]
    module
  unfold recover
  rw [h.checkPrivateKey_eq_ok hsk, ok_bind, checkHeader_eq_ok hattributes hscalars, ok_bind,
    matrix_headerWith, hw, ok_bind]
  simp only [hinverse]
  rw [hgather, ok_bind]
  simp only [M.values.inverse]
  change Except.ok (S.gt.mul (S.pair sk.k (S.g2.multiple pp.g2 secret)) _) = _
  rw [hnumerator, M.values.mul]
  congr 2
  module

/-- With an issued key recovery gives the multiplier but for the difference between the secret
and the weighted sum of the shares. -/
theorem recover_eq_ok (h : Established M x y α a pp msk) (hsk : Issued M x y α a t pp sk)
    (hattributes : pp.Resolves matrix.labels attributes)
    (hscalars : scalars.length = matrix.rowCount) {w : Weights} {scaleInverse : Scalar}
    (hw : matrix.weights (matrix.unavailable sk.holds) = .ok w)
    (hinverse : (Scalar.ofNat w.scale.natAbs).inverse? = some scaleInverse) :
    pp.recover (pp.headerWith matrix attributes secret rest scalars) sk =
      .ok (M.values.value ((α * secret + a * t * (secret - scaleInverse *
        (List.zipWith (fun (w : ℤ) row => (w : Scalar) * dot row (secret :: rest))
          w.coefficients matrix.rows).sum)) • M.e x y)) := by
  obtain ⟨elements, helements⟩ := hattributes.exists_elements h
  have hzero : ∀ z ∈ foreignTerms M y (fun _ => t - t) matrix.labels elements scalars, z = 0 := by
    intro z hz
    obtain ⟨i, hi, rfl⟩ := List.getElem_of_mem hz
    simp [foreignTerms]
  rw [recover_eq_of_assembled h hsk hattributes helements hscalars hw hinverse,
    weightedTerms_eq_zero hzero, sub_zero]

end Recover

end PublicParameters

/-! ## What issued keys recover -/

/-- The scale of weights has an inverse, for it is positive and less than the group order. -/
theorem Reconstruction.exists_scale_inverse {rows : List (List Int32)} {unavailable : List ℕ}
    {w : Weights} (h : Reconstruction rows unavailable w) :
    ∃ scaleInverse, (Scalar.ofNat w.scale.natAbs).inverse? = some scaleInverse ∧
      scaleInverse * (w.scale : Scalar) = 1 := by
  obtain ⟨columns, solved, positive, -, -, -, -, -, -, -, -, -, hfits⟩ := h.run
  have hpos := h.scale_pos
  have hcast : Scalar.ofNat w.scale.natAbs = (w.scale : Scalar) := by
    obtain ⟨n, hn⟩ := Int.eq_ofNat_of_zero_le (zero_le_one.trans hpos)
    rw [hn, Scalar.ofNat_eq_cast, Int.natAbs_natCast, Int.cast_natCast]
  have hlt : |w.scale| < groupOrder := by
    rw [abs_of_pos hpos]
    exact hfits.1.2.trans_lt (by decide)
  have hne : (w.scale : Scalar) ≠ 0 := by
    rw [ne_eq, Scalar.intCast_eq_zero_iff hlt]
    omega
  rw [hcast]
  exact Scalar.inverse?_eq_some hne

/-- What an issued key recovers from a header if the weights exist. -/
theorem Established.exists_recover_eq (h : Established M x y α a pp msk)
    (hsk : Issued M x y α a t pp sk) {matrix : ShareMatrix}
    {attributes : List (UInt32 × Attribute S.G1)}
    (hattributes : pp.Resolves matrix.labels attributes)
    {secret : Scalar} {rest scalars : List Scalar}
    (hvector : (secret :: rest).length = matrix.columns)
    (hscalars : scalars.length = matrix.rowCount) {w : Weights}
    (hw : matrix.weights (matrix.unavailable sk.holds) = .ok w) :
    ∃ scaleInverse, scaleInverse * (w.scale : Scalar) = 1 ∧
      pp.recover (pp.headerWith matrix attributes secret rest scalars) sk =
        .ok (pp.power (α * secret + a * t * (secret - scaleInverse *
          ∑ j ∈ Finset.range matrix.columns,
            (weightedSum w.coefficients matrix.rows j : Scalar) * (secret :: rest).getD j 0))) := by
  have hreconstruction := (overflowOr_reconstructionWeights (matrix.unavailable sk.holds)
    matrix.width_pos matrix.rectangular).of_eq_ok hw
  obtain ⟨scaleInverse, hinverse, hscale⟩ := hreconstruction.exists_scale_inverse
  refine ⟨scaleInverse, hscale, ?_⟩
  rw [PublicParameters.recover_eq_ok h hsk hattributes hscalars hw hinverse, h.power_eq,
    sum_weighted_dot fun row hrow => (matrix.rectangular row hrow).trans hvector.symm, hvector]

/-- An issued key whose rows reach the target recovers the multiplier. -/
theorem Established.recover_eq_of_reachable (h : Established M x y α a pp msk)
    (hsk : Issued M x y α a t pp sk) {matrix : ShareMatrix}
    {attributes : List (UInt32 × Attribute S.G1)}
    (hattributes : pp.Resolves matrix.labels attributes)
    {secret : Scalar} {rest scalars : List Scalar}
    (hvector : (secret :: rest).length = matrix.columns)
    (hscalars : scalars.length = matrix.rowCount) {w : Weights}
    (hw : matrix.weights (matrix.unavailable sk.holds) = .ok w)
    (hreachable : Reachable matrix.rows (matrix.unavailable sk.holds)) :
    pp.recover (pp.headerWith matrix attributes secret rest scalars) sk =
      .ok (S.gt.pow pp.blinding secret) := by
  obtain ⟨scaleInverse, hscale, hrecover⟩ :=
    h.exists_recover_eq hsk hattributes hvector hscalars hw
  have hsum := ((overflowOr_reconstructionWeights (matrix.unavailable sk.holds) matrix.width_pos
    matrix.rectangular).of_eq_ok hw).sum_eq hreachable
  rw [hrecover, ← hvector, sum_target_mul fun j hj => hsum j (hj.trans_eq hvector), ← mul_assoc,
    hscale, one_mul, sub_self, mul_zero, add_zero, h.blinding_pow]

/-- Whatever the matrix over registered labels is, and whatever is drawn, it has a header, and
every issued key recovers from it the power of `e(g₁, g₂)` for `α · s + a · t · (s - c · v / d)`
if the key's rows have weights with the scale `d`. Here `v` is the vector that was drawn, `s`
its first scalar, the secret, and `c` the weighted sum of the rows. If there are no weights,
recovery reports an overflow. If the target is in the span of the rows, it gives the multiplier.
If the key holds no row, it gives the power for `α · s + a · t · s`. -/
theorem recover_of_issued (M : S.Model X₁ X₂ X) {bits : UInt32} {ρ₀ : Randomness}
    {pp₀ : PublicParameters S} (hsetup : (setup S bits).result ρ₀ = .ok (pp₀, msk))
    (hpp : Registrations pp₀ pp) (hsk : pp.Issues msk t sk) {matrix : ShareMatrix}
    (hlabels : ∀ id ∈ matrix.labels, pp.knows id = true) (ρ : Randomness) :
    ∃ α a secret rest header multiplier, (setupSecrets S).value ρ₀ = (α, a) ∧
      (Randomness.scalars matrix.columns).value ρ = secret :: rest ∧
      (pp.encapsulate matrix).result ρ = .ok (header, multiplier) ∧
      (∀ w, matrix.weights (matrix.unavailable sk.holds) = .ok w →
        ∃ scaleInverse, scaleInverse * (w.scale : Scalar) = 1 ∧
          pp.recover header sk = .ok (pp.power (α * secret + a * t * (secret - scaleInverse *
            ∑ j ∈ Finset.range matrix.columns,
              (weightedSum w.coefficients matrix.rows j : Scalar) *
                (secret :: rest).getD j 0)))) ∧
      ((∀ w, matrix.weights (matrix.unavailable sk.holds) ≠ .ok w) →
        pp.recover header sk = .error .coefficientOverflow) ∧
      (∀ w, matrix.weights (matrix.unavailable sk.holds) = .ok w →
        targetVector matrix.columns ∈ availableSpan matrix.rows (matrix.unavailable sk.holds) →
        pp.recover header sk = .ok multiplier) ∧
      ((∀ id ∈ matrix.labels, sk.holds id = false) →
        pp.recover header sk = .ok (pp.power (α * secret + a * t * secret))) := by
  obtain ⟨γ, hγ⟩ := M.first.generator
  obtain ⟨k, y, hestablished⟩ := exists_established M hsetup hγ
  rcases hsecrets : (setupSecrets S).value ρ₀ with ⟨α, a⟩
  rw [hsecrets] at hestablished
  have h := hestablished.registrations hpp
  have hissued := h.issued hsk
  obtain ⟨attributes, hlookUp, hattributes⟩ :=
    PublicParameters.exists_lookUpIds fun id hid => Option.isSome_iff_exists.mp (hlabels id hid)
  obtain ⟨secret, rest, ρ', hdrawn, hvector, hscalars, hgives⟩ :=
    PublicParameters.gives_encapsulate hlookUp
      (hattributes.length_eq.symm.trans matrix.labels_length) ρ
  have hweights (w : Weights) (hw : matrix.weights (matrix.unavailable sk.holds) = .ok w) :=
    h.exists_recover_eq hissued hattributes hvector hscalars hw
  refine ⟨α, a, secret, rest, _, _, rfl, hdrawn, hgives.result_eq, hweights, fun hnone => ?_,
    fun w hw htarget => ?_, fun hheld => ?_⟩
  · rcases (overflowOr_reconstructionWeights (matrix.unavailable sk.holds) matrix.width_pos
      matrix.rectangular).cases with hw | ⟨w, hw, -⟩
    · unfold PublicParameters.recover
      rw [h.checkPrivateKey_eq_ok hissued, ok_bind,
        PublicParameters.checkHeader_eq_ok hattributes hscalars, ok_bind,
        PublicParameters.matrix_headerWith]
      change (reconstructionWeights matrix.rows _ >>= _) = _
      rw [hw]
      rfl
    · exact absurd hw (hnone w)
  · exact h.recover_eq_of_reachable hissued hattributes hvector hscalars hw
      (reachable_iff.mpr htarget)
  · have hunavailable : ∀ i < matrix.rows.length, i ∈ matrix.unavailable sk.holds := by
      intro i hi
      have hi' : i < matrix.labels.length := matrix.labels_length ▸ hi
      exact ShareMatrix.mem_unavailable_iff.mpr
        ⟨_, List.getElem?_eq_getElem hi', hheld _ (List.getElem_mem hi')⟩
    obtain ⟨scaleInverse, -, hrecover⟩ := hweights _
      (reconstructionWeights_of_unavailable matrix.width_pos matrix.rectangular hunavailable)
    rw [hrecover]
    simp only [weightedSum_replicate_zero, Int.cast_zero, zero_mul, Finset.sum_const_zero, mul_zero,
      sub_zero]

/-- A key for two attributes recovers the multiplier with weights whose scale is 10. -/
theorem recovers_with_scale :
    ∃ pp₀ msk pp sk matrix header multiplier,
      (setup exponents 128).result (.ofWords #[1]) = .ok (pp₀, msk) ∧ Registrations pp₀ pp ∧
      (pp.issueForNames msk ["a", "b"]).result (.ofSeed 3) = .ok sk ∧
      matrix.rows = [[2, 4], [3, 1]] ∧ matrix.labels = [0, 1] ∧
      (pp.encapsulate matrix).result (.ofSeed 4) = .ok (header, multiplier) ∧
      matrix.weights (matrix.unavailable sk.holds) = .ok ⟨[-1, 4], 10⟩ ∧
      pp.recover header sk = .ok multiplier := by
  obtain ⟨pp₀, msk, pp, hsetup, hpp, -, hentries⟩ := exists_exponents_pair
  obtain ⟨k, y, hestablished⟩ := exists_established exponentsModel hsetup rfl
  have hlookUp : pp.lookUpNames ["a", "b"] = .ok pp.registry.attributes.entries := by
    unfold PublicParameters.lookUpNames Registry.named?
    rw [hentries]
    rfl
  obtain ⟨t, hsk⟩ := (hestablished.registrations hpp).exists_issueForNames hlookUp
    (by rw [hentries]; simp) (.ofSeed 3)
  let matrix : ShareMatrix :=
    { rows := [[2, 4], [3, 1]], labels := [0, 1], width_pos := by decide,
      rectangular := by decide, labels_length := rfl, labels_nodup := by decide }
  have hunavailable : matrix.unavailable
      (pp.issueWith msk pp.registry.attributes.entries t).holds = [] := by
    rw [hentries]
    rfl
  have hweights : matrix.weights (matrix.unavailable
      (pp.issueWith msk pp.registry.attributes.entries t).holds) = .ok ⟨[-1, 4], 10⟩ := by
    rw [hunavailable]
    change reconstructionWeights [[2, 4], [3, 1]] [] = _
    rfl
  have hknown : ∀ id ∈ matrix.labels, pp.knows id = true := by
    unfold PublicParameters.knows Registry.attribute? IdMap.get?
    rw [hentries]
    simp [matrix]
  have htarget : targetVector matrix.columns ∈ availableSpan matrix.rows (matrix.unavailable
      (pp.issueWith msk pp.registry.attributes.entries t).holds) := by
    rw [hunavailable]
    exact reachable_iff.mp ⟨10, [-1, 4], by decide, rfl, by simp, by decide⟩
  obtain ⟨α, a, secret, rest, header, multiplier, -, -, hencapsulate, -, -, hspan, -⟩ :=
    recover_of_issued exponentsModel hsetup hpp (.forNames (.refl pp) hsk) hknown (.ofSeed 4)
  exact ⟨pp₀, msk, pp, _, matrix, header, multiplier, hsetup, hpp, hsk, rfl, rfl, hencapsulate,
    hweights, hspan _ hweights htarget⟩

end AttributeEncryption
