import AttributeEncryption.Proofs.Pairing
import AttributeEncryption.Proofs.Scheme.Checks
import AttributeEncryption.Proofs.Scheme.Payloads
import AttributeEncryption.Proofs.Scheme.SignedPowers
import AttributeEncryption.Proofs.Wire.Formats

/-!
# Recovery on untrusted input

Keys and headers may be any that there are, and so may the entries of the matrix. If the points of
the key pair to units with those of the rows (`PrivateKey.PairsToUnits`), recovery ends in one of
four ways (`recover_untrusted`) : the key is refused, or else the header, or else the weights
overflow, or else there is a value. Only units are multiplied up on the way (`exists_gather`), so
nothing without an inverse is inverted. A ciphertext and a key that were read are not refused,
whatever bytes they come from.

In a field the units are the elements other than 0 (`ValueGroup.InField.units`). So on the curve
no more is asked of the points than that their lines are not 0 (`pairing_eq_zero_iff`).
-/

open scoped Fin.CommRing

namespace AttributeEncryption

/-! ## Units -/

/-- Values that have inverses, closed under products and inverses. -/
structure ValueGroup.Units {V : Type} (g : ValueGroup V) (unit : V → Prop) : Prop where
  one : unit g.one
  mul : ∀ {v w}, unit v → unit w → unit (g.mul v w)
  inverse : ∀ {v}, unit v → ∃ w, g.inverse? v = some w ∧ unit w

variable {S : Suite} {unit : S.Gt → Prop}

namespace ValueGroup.Units

variable (hunits : S.gt.Units unit)

include hunits

theorem pow {v : S.Gt} (hv : unit v) (k : Scalar) : unit (S.gt.pow v k) :=
  @power_spec _ S.gt.mul S.gt.one v (fun w _ => unit w) hunits.one hunits.mul hv k.val

theorem exists_mulSignedPow {product base : S.Gt} (hproduct : unit product) (hbase : unit base)
    (exponent : ℤ) (scaleInverse : Scalar) :
    ∃ v, S.mulSignedPow product base exponent scaleInverse = .ok v ∧ unit v := by
  have hfactor := hunits.pow hbase (Scalar.ofNat exponent.natAbs * scaleInverse)
  unfold Suite.mulSignedPow
  simp only
  split_ifs
  · obtain ⟨w, hinverse, hw⟩ := hunits.inverse hfactor
    rw [hinverse]
    exact ⟨_, rfl, hunits.mul hproduct hw⟩
  · exact ⟨_, rfl, hunits.mul hproduct hfactor⟩

end ValueGroup.Units

theorem ValueGroup.InField.units {V : Type} [CommGroupWithZero V] {g : ValueGroup V}
    (hg : g.InField) : g.Units (· ≠ 0) where
  one := hg.one.symm ▸ one_ne_zero
  mul hv hw := (hg.mul _ _).symm ▸ mul_ne_zero hv hw
  inverse hv := ⟨_, hg.inverse hv, inv_ne_zero hv⟩

/-- The points of a row give units with the points of a key : the first one with the point `L`, the
second one with every component. -/
def PrivateKey.PairsToUnits (sk : PrivateKey S) (unit : S.Gt → Prop) (p : S.G1 × S.G2) : Prop :=
  unit (S.pair p.1 sk.l) ∧ ∀ e ∈ sk.components.entries, unit (S.pair e.2 p.2)

namespace PublicParameters

variable {pp : PublicParameters S} {sk : PrivateKey S} {h : Header S}

/-! ## Gathering -/

/-- Gathering gives a unit. A row that takes part has a component, for the key holds its
label. -/
theorem exists_gather (hunits : S.gt.Units unit) (scaleInverse : Scalar)
    {rows : List (ℤ × UInt32 × S.G1 × S.G2)} (hrows : ∀ r ∈ rows, sk.PairsToUnits unit r.2.2)
    (row : ℕ) {product : S.Gt} (hproduct : unit product) :
    ∃ v, gather sk scaleInverse row product rows = .ok v ∧ unit v := by
  induction rows generalizing row product with
  | nil => exact ⟨product, rfl, hproduct⟩
  | cons first rows ih =>
    obtain ⟨weight, id, c, d⟩ := first
    obtain ⟨⟨hfirst, hsecond⟩, hrows⟩ := List.forall_mem_cons.mp hrows
    rw [gather]
    split_ifs with hskip
    · exact ih hrows (row + 1) hproduct
    · have hholds : sk.holds id = true := by
        simp only [Bool.or_eq_true, Bool.not_eq_true', not_or, Bool.not_eq_false] at hskip
        exact hskip.2
      obtain ⟨component, hcomponent⟩ := Option.isSome_iff_exists.mp hholds
      obtain ⟨v, hv, hunit⟩ := hunits.exists_mulSignedPow hproduct
        (hunits.mul hfirst (hsecond _ (IdMap.get?_eq_some_iff.mp hcomponent))) weight scaleInverse
      rw [hcomponent]
      simp only
      rw [hv]
      exact ih hrows (row + 1) hunit

/-- If the weights exist, there is a value. -/
theorem exists_recover (hunits : S.gt.Units unit) (hpair : ∀ p ∈ h.pairs, sk.PairsToUnits unit p)
    (hkey : pp.checkPrivateKey sk = .ok ()) (hheader : pp.checkHeader h = .ok ()) {w : Weights}
    (hw : h.matrix.weights (h.matrix.unavailable sk.holds) = .ok w)
    (hreconstruction : Reconstruction h.matrix.rows (h.matrix.unavailable sk.holds) w) :
    ∃ v, pp.recover h sk = .ok v := by
  obtain ⟨scaleInverse, hinverse, -⟩ := hreconstruction.exists_scale_inverse
  have hrows : ∀ r ∈ w.coefficients.zip (h.matrix.labels.zip h.pairs),
      sk.PairsToUnits unit r.2.2 := fun r hr =>
    hpair _ (List.of_mem_zip (List.of_mem_zip hr).2).2
  obtain ⟨v, hv, hunit⟩ := exists_gather hunits scaleInverse hrows 0 hunits.one
  obtain ⟨inverse, hinverse', -⟩ := hunits.inverse hunit
  refine ⟨S.gt.mul (S.pair sk.k h.base) inverse, ?_⟩
  unfold recover
  rw [hkey, ok_bind, hheader, ok_bind, hw, ok_bind]
  simp only [hinverse]
  rw [hv, ok_bind]
  simp only [hinverse']
  rfl

/-- If the weights overflow, recovery says so. -/
theorem recover_of_overflow (hkey : pp.checkPrivateKey sk = .ok ())
    (hheader : pp.checkHeader h = .ok ())
    (hw : h.matrix.weights (h.matrix.unavailable sk.holds) = .error .coefficientOverflow) :
    pp.recover h sk = .error .coefficientOverflow := by
  unfold recover
  rw [hkey, ok_bind, hheader, ok_bind, hw]
  rfl

/-- Whatever the entries of a matrix are, its weights exist or overflow. -/
theorem weights_cases (matrix : ShareMatrix) (unavailable : List ℕ) :
    matrix.weights unavailable = .error .coefficientOverflow ∨
      ∃ w, matrix.weights unavailable = .ok w ∧ Reconstruction matrix.rows unavailable w :=
  (overflowOr_reconstructionWeights unavailable matrix.width_pos matrix.rectangular).cases

/-! ## Ways to end -/

/-- Recovery ends in one of four ways, and each has its own reason. -/
theorem recover_cases (hunits : S.gt.Units unit) (pp : PublicParameters S) (h : Header S)
    (sk : PrivateKey S) (hpair : ∀ p ∈ h.pairs, sk.PairsToUnits unit p) :
    pp.RefusesKey sk ∧ (∃ fault, pp.recover h sk = .error (.invalidPrivateKey fault)) ∨
      ¬ pp.RefusesKey sk ∧ pp.RefusesHeader h ∧
        (∃ fault, pp.recover h sk = .error (.invalidCiphertext fault) ∧
          ∀ row, fault ≠ .bareRow row) ∨
      ¬ pp.RefusesKey sk ∧ ¬ pp.RefusesHeader h ∧
        h.matrix.weights (h.matrix.unavailable sk.holds) = .error .coefficientOverflow ∧
        pp.recover h sk = .error .coefficientOverflow ∨
      ¬ pp.RefusesKey sk ∧ ¬ pp.RefusesHeader h ∧
        (∃ w, h.matrix.weights (h.matrix.unavailable sk.holds) = .ok w) ∧
        ∃ v, pp.recover h sk = .ok v := by
  rcases pp.checkPrivateKey_cases sk with ⟨⟨fault, hkey⟩, hrefused⟩ | ⟨hkey, hkey'⟩
  · refine Or.inl ⟨hrefused, fault, ?_⟩
    rw [recover, hkey]
    rfl
  rcases pp.checkHeader_cases h with ⟨⟨fault, hheader, hbare⟩, hrefused⟩ | ⟨hheader, hheader'⟩
  · refine Or.inr (Or.inl ⟨hkey', hrefused, fault, ?_, hbare⟩)
    rw [recover, hkey, ok_bind, hheader]
    rfl
  rcases weights_cases h.matrix (h.matrix.unavailable sk.holds) with hw | ⟨w, hw, hreconstruction⟩
  · exact Or.inr (Or.inr (Or.inl ⟨hkey', hheader', hw, recover_of_overflow hkey hheader hw⟩))
  · exact Or.inr (Or.inr (Or.inr ⟨hkey', hheader', ⟨w, hw⟩,
      exists_recover hunits hpair hkey hheader hw hreconstruction⟩))

/-- A row that has a weight and whose label the key holds has a label and a component. -/
theorem exists_component {row : ℕ} (hrow : row < h.matrix.rowCount)
    (hheld : row ∉ h.matrix.unavailable sk.holds) :
    ∃ id component, h.matrix.label? row = some id ∧ sk.components.get? id = some component := by
  have hlabel : row < h.matrix.labels.length := h.matrix.labels_length ▸ hrow
  have hholds : sk.holds h.matrix.labels[row] = true := by
    by_contra hnot
    exact hheld (ShareMatrix.mem_unavailable_iff.mpr
      ⟨_, List.getElem?_eq_getElem hlabel, Bool.eq_false_iff.mpr hnot⟩)
  obtain ⟨component, hcomponent⟩ := Option.isSome_iff_exists.mp hholds
  exact ⟨_, component, List.getElem?_eq_getElem hlabel, hcomponent⟩

/-- Decryption ends with a value if recovery does. -/
theorem decrypt_cases (hunits : S.gt.Units unit) {ct : Ciphertext S}
    (hpair : ∀ p ∈ ct.header.pairs, sk.PairsToUnits unit p)
    (hkey : pp.checkPrivateKey sk = .ok ()) (hheader : pp.checkHeader ct.header = .ok ()) :
    (∃ data, pp.decrypt ct sk = .ok data) ∨ pp.decrypt ct sk = .error .coefficientOverflow := by
  rcases weights_cases ct.header.matrix (ct.header.matrix.unavailable sk.holds) with
    hw | ⟨w, hw, hreconstruction⟩
  · rw [decrypt, recover_of_overflow hkey hheader hw]
    exact Or.inr rfl
  · obtain ⟨v, hv⟩ := exists_recover hunits hpair hkey hheader hw hreconstruction
    exact Or.inl ⟨_, decrypt_eq_mask hv ct.content⟩

/-- If the points of the rows and of the key pair to units, recovery from any header with any key
refuses the key, or else the header, or else reports that the weights overflow, or else gives a
value. It never comes to a row without a component, and never inverts what has no inverse. The
weights of any matrix exist, with a scale that has an inverse, or they overflow. A ciphertext and a
private key that were read, and whose points pair to units, are decrypted to some data, or the
weights overflow. -/
theorem recover_untrusted (hunits : S.gt.Units unit) (pp : PublicParameters S) (h : Header S)
    (sk : PrivateKey S) (hpair : ∀ p ∈ h.pairs, sk.PairsToUnits unit p) :
    (((∃ fault, pp.recover h sk = .error (.invalidPrivateKey fault)) ↔ pp.RefusesKey sk) ∧
      ((∃ fault, pp.recover h sk = .error (.invalidCiphertext fault)) ↔
        ¬ pp.RefusesKey sk ∧ pp.RefusesHeader h) ∧
      (pp.recover h sk = .error .coefficientOverflow ↔
        ¬ pp.RefusesKey sk ∧ ¬ pp.RefusesHeader h ∧
          h.matrix.weights (h.matrix.unavailable sk.holds) = .error .coefficientOverflow) ∧
      ((∃ v, pp.recover h sk = .ok v) ↔
        ¬ pp.RefusesKey sk ∧ ¬ pp.RefusesHeader h ∧
          h.matrix.weights (h.matrix.unavailable sk.holds) ≠ .error .coefficientOverflow) ∧
      (∀ row, pp.recover h sk ≠ .error (.invalidCiphertext (.bareRow row))) ∧
      pp.recover h sk ≠ .error .noInverse) ∧
    (∀ row < h.matrix.rowCount, row ∉ h.matrix.unavailable sk.holds →
      ∃ id component, h.matrix.label? row = some id ∧
        sk.components.get? id = some component) ∧
    (∀ unavailable, h.matrix.weights unavailable = .error .coefficientOverflow ∨
      ∃ w scaleInverse, h.matrix.weights unavailable = .ok w ∧
        (Scalar.ofNat w.scale.natAbs).inverse? = some scaleInverse) ∧
    ∀ (input input' : List UInt8) (ct : Ciphertext S) (sk' : PrivateKey S),
      Reader.ofBytes (Ciphertext.read pp) input = .ok ct →
      Reader.ofBytes (PrivateKey.read pp) input' = .ok sk' →
      (∀ p ∈ ct.header.pairs, sk'.PairsToUnits unit p) →
      (∃ data, pp.decrypt ct sk' = .ok data) ∨
        pp.decrypt ct sk' = .error .coefficientOverflow := by
  refine ⟨?_, fun row hrow hheld => exists_component hrow hheld, fun unavailable => ?_,
    fun input input' ct sk' hct hsk hpair' => ?_⟩
  · -- the four ways exclude each other, so each of them has its own reason
    rcases recover_cases hunits pp h sk hpair with ⟨hkey, fault, hr⟩ |
      ⟨hkey, hheader, fault, hr, hbare⟩ | ⟨hkey, hheader, hw, hr⟩ | ⟨hkey, hheader, ⟨w, hw⟩, v, hr⟩
    · simp [hr, hkey]
    · simp [hr, hkey, hheader, hbare]
    · simp [hr, hkey, hheader, hw]
    · simp [hr, hkey, hheader, hw]
  · rcases weights_cases h.matrix unavailable with hw | ⟨w, hw, hreconstruction⟩
    · exact Or.inl hw
    · obtain ⟨scaleInverse, hinverse, -⟩ := hreconstruction.exists_scale_inverse
      exact Or.inr ⟨w, scaleInverse, hw, hinverse⟩
  · obtain ⟨⟨ct, rest⟩, hct', rfl⟩ := exists_of_map_eq_ok hct
    obtain ⟨⟨sk', rest'⟩, hsk', rfl⟩ := exists_of_map_eq_ok hsk
    exact decrypt_cases hunits hpair' (PrivateKey.accepts_of_read hsk')
      (Ciphertext.accepts_of_read hct')

end PublicParameters

/-- Over the exponents every value is a unit. -/
theorem units_exponents : exponents.gt.Units fun _ => True where
  one := trivial
  mul _ _ := trivial
  inverse _ := ⟨_, rfl, trivial⟩

/-- Parameters over the exponents, with three attributes. -/
def foreignParameters : PublicParameters exponents where
  level := ⟨128, by decide, by decide⟩
  g1 := (1 : Scalar)
  g2 := (1 : Scalar)
  g1a := (2 : Scalar)
  blinding := (3 : Scalar)
  registry :=
    ⟨⟨[(0, ⟨"a", (5 : Scalar)⟩), (1, ⟨"b", (6 : Scalar)⟩), (2, ⟨"c", (7 : Scalar)⟩)], by decide⟩,
      by decide⟩

/-- A key whose components were not made with its other points. -/
def foreignKey : PrivateKey exponents where
  k := (13 : Scalar)
  l := (5 : Scalar)
  components := ⟨[(0, (8 : Scalar)), (1, (9 : Scalar)), (2, (8 : Scalar))], by decide⟩

/-- A header whose pairs were not made for its matrix. -/
def foreignHeader : Header exponents where
  matrix :=
    { rows := [[2, 4], [3, 1]], labels := [0, 1], width_pos := by decide
      rectangular := by decide, labels_length := rfl, labels_nodup := by decide }
  base := (4 : Scalar)
  pairs := [((1 : Scalar), (2 : Scalar)), ((3 : Scalar), (4 : Scalar))]

/-- A header with entries for which the weights overflow. -/
def overflowingHeader : Header exponents where
  matrix :=
    { rows := [[0x7FFFFFFF, 1, 5], [0x7FFFFFC3, 1, 7], [0x7FFFFFBB, 1, 11]]
      labels := [2, 0, 1], width_pos := by decide
      rectangular := by decide, labels_length := rfl, labels_nodup := by decide }
  base := (4 : Scalar)
  pairs := [((1 : Scalar), (2 : Scalar)), ((3 : Scalar), (4 : Scalar)),
    ((5 : Scalar), (6 : Scalar))]

theorem accepts_foreign : ¬ foreignParameters.RefusesKey foreignKey ∧
    ¬ foreignParameters.RefusesHeader foreignHeader ∧
    ¬ foreignParameters.RefusesHeader overflowingHeader := by
  unfold PublicParameters.RefusesKey PublicParameters.RefusesHeader
  decide +kernel

/-- Parameters of the curve with generators for points. -/
def generatorParameters : PublicParameters bn254 where
  level := ⟨128, by decide, by decide⟩
  g1 := CurvePoint.generator
  g2 := TwistPoint.generator
  g1a := CurvePoint.generator
  blinding := (1 : Dodecic)
  registry := ⟨⟨[(0, ⟨"a", CurvePoint.generator⟩)], by decide⟩, by decide⟩

/-- A key of generators. -/
def generatorKey : PrivateKey bn254 where
  k := CurvePoint.generator
  l := TwistPoint.generator
  components := ⟨[(0, CurvePoint.generator)], by decide⟩

/-- A header of generators, for one row. -/
def generatorHeader : Header bn254 where
  matrix :=
    { rows := [[1]], labels := [0], width_pos := by decide
      rectangular := by decide, labels_length := rfl, labels_nodup := by decide }
  base := TwistPoint.generator
  pairs := [(CurvePoint.generator, TwistPoint.generator)]

theorem accepts_generators : ¬ generatorParameters.RefusesKey generatorKey ∧
    ¬ generatorParameters.RefusesHeader generatorHeader :=
  ⟨not_or.mpr ⟨not_not.mpr (Dodecic.one_mul _).symm, by decide⟩,
    not_or.mpr ⟨not_not.mpr rfl, by decide⟩⟩

/-- A key with foreign components recovers a value from a header with foreign pairs, and with
larger entries the weights overflow; a key with another point `L` is refused, and so is a header
without pairs. On the curve, a key and a header of generators give a value. -/
theorem foreign_key_recovers :
    (∃ (pp : PublicParameters exponents) (h h' : Header exponents) (sk : PrivateKey exponents),
      h.matrix.rows = [[2, 4], [3, 1]] ∧ (∃ v, pp.recover h sk = .ok v) ∧
      pp.recover h' sk = .error .coefficientOverflow ∧
      (∃ fault, pp.recover { h with pairs := [] } sk = .error (.invalidCiphertext fault)) ∧
      ∃ fault, pp.recover h { sk with l := (6 : Scalar) } = .error (.invalidPrivateKey fault)) ∧
    ∃ v, generatorParameters.recover generatorHeader generatorKey = .ok v := by
  obtain ⟨hkey, hheader, hheader'⟩ := accepts_foreign
  have hw : foreignHeader.matrix.weights
      (foreignHeader.matrix.unavailable foreignKey.holds) = .ok ⟨[-1, 4], 10⟩ := by decide +kernel
  have hw' : overflowingHeader.matrix.weights
      (overflowingHeader.matrix.unavailable foreignKey.holds) = .error .coefficientOverflow := by
    decide +kernel
  have hunits (h : Header exponents) (sk : PrivateKey exponents) :
      ∀ p ∈ h.pairs, sk.PairsToUnits (fun _ => True) p := fun _ _ => ⟨trivial, fun _ _ => trivial⟩
  obtain ⟨⟨-, -, -, hok, -⟩, -⟩ := PublicParameters.recover_untrusted units_exponents
    foreignParameters foreignHeader foreignKey (hunits _ _)
  obtain ⟨⟨-, -, hoverflow, -⟩, -⟩ := PublicParameters.recover_untrusted units_exponents
    foreignParameters overflowingHeader foreignKey (hunits _ _)
  obtain ⟨⟨-, hciphertext, -⟩, -⟩ := PublicParameters.recover_untrusted units_exponents
    foreignParameters { foreignHeader with pairs := [] } foreignKey (hunits _ _)
  obtain ⟨⟨hprivateKey, -⟩, -⟩ := PublicParameters.recover_untrusted units_exponents
    foreignParameters foreignHeader { foreignKey with l := (6 : Scalar) } (hunits _ _)
  refine ⟨⟨foreignParameters, foreignHeader, overflowingHeader, foreignKey, rfl,
    hok.mpr ⟨hkey, hheader, by rw [hw]; nofun⟩, hoverflow.mpr ⟨hkey, hheader', hw'⟩,
    hciphertext.mpr ⟨hkey, Or.inl (by decide)⟩,
    hprivateKey.mpr (Or.inl (by decide +kernel))⟩, ?_⟩
  have hpair : ∀ p ∈ generatorHeader.pairs, generatorKey.PairsToUnits (· ≠ 0) p :=
    List.forall_mem_singleton.mpr
      ⟨pairing_generator_ne_zero, List.forall_mem_singleton.mpr pairing_generator_ne_zero⟩
  obtain ⟨⟨-, -, -, hok, -⟩, -⟩ := PublicParameters.recover_untrusted inField_bn254.units
    generatorParameters generatorHeader generatorKey hpair
  have hw : generatorHeader.matrix.weights
      (generatorHeader.matrix.unavailable generatorKey.holds) = .ok ⟨[1], 1⟩ := by decide +kernel
  exact hok.mpr ⟨accepts_generators.1, accepts_generators.2, by rw [hw]; nofun⟩

end AttributeEncryption
