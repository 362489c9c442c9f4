import AttributeEncryption.Proofs.Decimals
import AttributeEncryption.Proofs.GroupOrder
import AttributeEncryption.Proofs.Tower
import AttributeEncryption.Scheme.Header
import Mathlib.Algebra.BigOperators.Group.List.Lemmas

/-!
# Products of signed powers

The denominator of a recovered value is multiplied up from signed powers of pairing values, all
of them divided by one scale in the exponent (`gather_eq_mulSignedPows`). Over the elements of a
field (`ValueGroup.InField`) a signed power multiplies with a power of its base, whose exponent is
an integer (`signedFactor`). So products do not depend on the order of their factors, opposite
exponents cancel, and for bases whose powers repeat at the group order the scale divides
exponents : the product to the power of the scale is the product of the powers themselves
(`signed_powers_accumulate`).

The values of the curve are the elements of a field (`inField_bn254`).
-/

open scoped Fin.CommRing

namespace AttributeEncryption

/-! ## Signed powers in a field -/

/-- The values and their operations are the elements of a field with its multiplication. -/
structure ValueGroup.InField {V : Type} [CommGroupWithZero V] (g : ValueGroup V) : Prop where
  one : g.one = 1
  mul : ∀ v w, g.mul v w = v * w
  inverse : ∀ {v}, v ≠ 0 → g.inverse? v = some v⁻¹

theorem ValueGroup.InField.pow_eq {V : Type} [CommGroupWithZero V] {g : ValueGroup V}
    (hg : g.InField) (v : V) (k : Scalar) : g.pow v k = v ^ k.val := by
  have hmul : g.mul = (· * ·) := funext₂ hg.mul
  rw [ValueGroup.pow, hmul, hg.one, power_eq_pow]

section Factors

variable {V : Type} [CommGroupWithZero V] {base : V}

/-- What a signed power multiplies with : the scaled magnitude of the exponent is reduced before
it gets the sign of the exponent. -/
def signedFactor (scaleInverse : Scalar) (base : V) (exponent : ℤ) : V :=
  base ^ (exponent.sign * (Scalar.ofNat exponent.natAbs * scaleInverse).val)

theorem signedFactor_neg (scaleInverse : Scalar) (base : V) (exponent : ℤ) :
    signedFactor scaleInverse base (-exponent) = (signedFactor scaleInverse base exponent)⁻¹ := by
  rw [signedFactor, Int.sign_neg, Int.natAbs_neg, neg_mul, zpow_neg, signedFactor]

theorem signedFactor_ne_zero (hbase : base ≠ 0) (scaleInverse : Scalar) (exponent : ℤ) :
    signedFactor scaleInverse base exponent ≠ 0 :=
  zpow_ne_zero _ hbase

/-- Powers that repeat at the group order depend on the residues of their exponents only. -/
theorem pow_eq_pow_of_cast_eq (hbase : base ^ groupOrder = 1) {m n : ℕ}
    (h : (m : Scalar) = n) : base ^ m = base ^ n := by
  have hmod : m % groupOrder = n % groupOrder := congrArg Fin.val h
  rw [pow_eq_pow_mod m hbase, hmod, ← pow_eq_pow_mod n hbase]

theorem signedFactor_pow_groupOrder (hbase : base ^ groupOrder = 1) (scaleInverse : Scalar)
    (exponent : ℤ) : signedFactor scaleInverse base exponent ^ groupOrder = 1 := by
  rw [signedFactor, ← zpow_natCast, ← zpow_mul, mul_comm, zpow_mul, zpow_natCast, hbase, one_zpow]

/-- The scale divides the exponent. -/
theorem signedFactor_pow_scale (hbase : base ^ groupOrder = 1) {scaleInverse : Scalar} {scale : ℕ}
    (hscale : scaleInverse * (scale : Scalar) = 1) (exponent : ℤ) :
    signedFactor scaleInverse base exponent ^ scale = base ^ exponent := by
  have hmagnitude : base ^ ((Scalar.ofNat exponent.natAbs * scaleInverse).val * scale) =
      base ^ exponent.natAbs := by
    refine pow_eq_pow_of_cast_eq hbase ?_
    rw [Nat.cast_mul, Fin.cast_val_eq_self, mul_assoc, hscale, mul_one, Scalar.ofNat_eq_cast]
  calc signedFactor scaleInverse base exponent ^ scale
      = (base ^ ((Scalar.ofNat exponent.natAbs * scaleInverse).val * scale)) ^ exponent.sign := by
        rw [signedFactor, ← zpow_natCast, ← zpow_mul, ← zpow_natCast, ← zpow_mul, Nat.cast_mul]
        congr 1
        ring
    _ = base ^ exponent := by
        rw [hmagnitude, ← zpow_natCast, ← zpow_mul, mul_comm, Int.sign_mul_natAbs]

/-- The scale can be undone. -/
theorem eq_of_pow_scale_eq {scaleInverse : Scalar} {scale : ℕ}
    (hscale : scaleInverse * (scale : Scalar) = 1) {v w : V} (hv : v ^ groupOrder = 1)
    (hw : w ^ groupOrder = 1) (h : v ^ scale = w ^ scale) : v = w := by
  have hroot {u : V} (hu : u ^ groupOrder = 1) : (u ^ scale) ^ scaleInverse.val = u := by
    rw [← pow_mul, ← pow_one u, ← pow_mul, one_mul]
    refine pow_eq_pow_of_cast_eq hu ?_
    rw [Nat.cast_mul, Fin.cast_val_eq_self, mul_comm, hscale, Nat.cast_one]
  rw [← hroot hv, h, hroot hw]

end Factors

/-! ## Products -/

/-- Multiplies signed powers to a value, one after the other. -/
def Suite.mulSignedPows (S : Suite) (scaleInverse : Scalar) (start : S.Gt)
    (factors : List (S.Gt × ℤ)) : Except Failure S.Gt :=
  factors.foldlM (fun product f => S.mulSignedPow product f.1 f.2 scaleInverse) start

variable {S : Suite}

section InField

variable [CommGroupWithZero S.Gt] {scaleInverse : Scalar}

/-- A signed power of a base other than 0 multiplies with its factor. -/
theorem Suite.mulSignedPow_eq (hS : S.gt.InField) {base : S.Gt} (hbase : base ≠ 0)
    (product : S.Gt) (exponent : ℤ) :
    S.mulSignedPow product base exponent scaleInverse =
      .ok (product * signedFactor scaleInverse base exponent) := by
  unfold Suite.mulSignedPow signedFactor
  simp only [hS.pow_eq, hS.mul]
  split_ifs with hneg
  · rw [hS.inverse (pow_ne_zero _ hbase), Int.sign_eq_neg_one_of_neg hneg, neg_one_mul, zpow_neg,
      zpow_natCast]
  · rcases (not_lt.mp hneg).eq_or_lt with rfl | hpos
    · simp [Scalar.ofNat_eq_cast]
    · rw [Int.sign_eq_one_of_pos hpos, one_mul, zpow_natCast]

/-- Opposite exponents cancel. -/
theorem Suite.exists_mulSignedPow_neg (hS : S.gt.InField) {base : S.Gt} (hbase : base ≠ 0)
    (product : S.Gt) (exponent : ℤ) :
    ∃ v, S.mulSignedPow product base exponent scaleInverse = .ok v ∧
      S.mulSignedPow v base (-exponent) scaleInverse = .ok product := by
  refine ⟨_, Suite.mulSignedPow_eq hS hbase product exponent, ?_⟩
  rw [Suite.mulSignedPow_eq hS hbase, signedFactor_neg,
    mul_inv_cancel_right₀ (signedFactor_ne_zero hbase scaleInverse exponent)]

theorem Suite.mulSignedPows_eq (hS : S.gt.InField) {factors : List (S.Gt × ℤ)}
    (hfactors : ∀ f ∈ factors, f.1 ≠ 0) (start : S.Gt) :
    S.mulSignedPows scaleInverse start factors =
      .ok (start * (factors.map fun f => signedFactor scaleInverse f.1 f.2).prod) := by
  induction factors generalizing start with
  | nil =>
    rw [List.map_nil, List.prod_nil, mul_one]
    rfl
  | cons f factors ih =>
    obtain ⟨hf, hfactors⟩ := List.forall_mem_cons.mp hfactors
    rw [Suite.mulSignedPows, List.foldlM_cons, Suite.mulSignedPow_eq hS hf, List.map_cons,
      List.prod_cons, ← mul_assoc]
    exact ih hfactors _

/-- Signed powers whose bases have powers that repeat at the group order multiply with a value `P`
of this kind, whatever their order. To the power of the scale it is the product of the powers. -/
theorem Suite.exists_product (hS : S.gt.InField) {scale : ℕ}
    (hscale : scaleInverse * (scale : Scalar) = 1) {factors : List (S.Gt × ℤ)}
    (hfactors : ∀ f ∈ factors, f.1 ^ groupOrder = 1) :
    ∃ P : S.Gt, P ^ groupOrder = 1 ∧ P ^ scale = (factors.map fun f => f.1 ^ f.2).prod ∧
      ∀ (start : S.Gt) (factors' : List (S.Gt × ℤ)), factors'.Perm factors →
        S.mulSignedPows scaleInverse start factors' = .ok (start * P) := by
  have hne : ∀ f ∈ factors, f.1 ≠ 0 := by
    rintro f hf hzero
    have hone := hfactors f hf
    rw [hzero, zero_pow (NeZero.ne groupOrder)] at hone
    exact zero_ne_one hone
  have hpow (n : ℕ) : (factors.map fun f => signedFactor scaleInverse f.1 f.2).prod ^ n =
      (factors.map fun f => signedFactor scaleInverse f.1 f.2 ^ n).prod := by
    rw [← powMonoidHom_apply, map_list_prod, List.map_map]
    rfl
  refine ⟨(factors.map fun f => signedFactor scaleInverse f.1 f.2).prod, ?_, ?_,
    fun start factors' hperm => ?_⟩
  · rw [hpow]
    refine List.prod_eq_one fun v hv => ?_
    obtain ⟨f, hf, rfl⟩ := List.mem_map.mp hv
    exact signedFactor_pow_groupOrder (hfactors f hf) scaleInverse f.2
  · rw [hpow, List.map_congr_left fun f hf => signedFactor_pow_scale (hfactors f hf) hscale f.2]
  · rw [Suite.mulSignedPows_eq hS fun f hf => hne f (hperm.subset hf), (hperm.map _).prod_eq]

end InField

/-! ## Denominators -/

/-- The terms of the rows that take part in a recovery, with their weights. -/
def contributions (sk : PrivateKey S) (rows : List (ℤ × UInt32 × S.G1 × S.G2)) :
    List (S.Gt × ℤ) :=
  rows.filterMap fun (weight, id, c, d) =>
    if weight = 0 then none
    else (sk.components.get? id).map fun component =>
      (S.gt.mul (S.pair c sk.l) (S.pair component d), weight)

/-- What rows contribute to a denominator is a product of signed powers. -/
theorem gather_eq_mulSignedPows (sk : PrivateKey S) (scaleInverse : Scalar)
    (rows : List (ℤ × UInt32 × S.G1 × S.G2)) (row : ℕ) (product : S.Gt) :
    PublicParameters.gather sk scaleInverse row product rows =
      S.mulSignedPows scaleInverse product (contributions sk rows) := by
  induction rows generalizing row product with
  | nil => rfl
  | cons first rows ih =>
    obtain ⟨weight, id, c, d⟩ := first
    have hholds : sk.holds id = (sk.components.get? id).isSome := rfl
    rw [PublicParameters.gather, hholds]
    by_cases hweight : weight = 0
    · simp [hweight, ih, contributions]
    · cases hcomponent : sk.components.get? id with
      | none => simp [ih, contributions, hcomponent]
      | some component => simp [hweight, ih, contributions, hcomponent, Suite.mulSignedPows]

/-! ## Accumulation -/

theorem toInt_neg_of_ne_minValue {n : Int64} (h : n ≠ Int64.minValue) : (-n).toInt = -n.toInt := by
  have hleast : n.toInt ≠ -2 ^ 63 := fun hn => h (Int64.toInt_inj.mp hn)
  have hle := n.le_toInt
  have hlt := n.toInt_lt
  rw [Int64.toInt_neg]
  exact Int.bmod_eq_of_le (by omega) (by omega)

/-- Signed powers of values whose powers repeat at the group order multiply what they start from
with one value `P`, whatever their order. It is the only value of this kind which to the power of
the scale is the product of the powers. For any base other than 0, opposite exponents cancel if
both are numbers of 64 bits. The texts by which such numbers become scalars are read as their
residues, magnitudes of exponents among them. -/
theorem signed_powers_accumulate [CommGroupWithZero S.Gt] (hS : S.gt.InField)
    {read : String → Option Scalar} (hread : ReadsDecimals read) :
    (∀ (factors : List (S.Gt × ℤ)) (scale : ℕ), (∀ f ∈ factors, f.1 ^ groupOrder = 1) →
      0 < scale → scale < 2 ^ 63 →
      ∃ scaleInverse, (Scalar.ofNat scale).inverse? = some scaleInverse ∧
        scaleInverse * (scale : Scalar) = 1 ∧
        ∃ P : S.Gt, P ^ scale = (factors.map fun f => f.1 ^ f.2).prod ∧ P ^ groupOrder = 1 ∧
          (∀ Q : S.Gt, Q ^ groupOrder = 1 → Q ^ scale = P ^ scale → Q = P) ∧
          ∀ (start : S.Gt) (factors' : List (S.Gt × ℤ)), factors'.Perm factors →
            S.mulSignedPows scaleInverse start factors' = .ok (start * P)) ∧
    (∀ (product base : S.Gt) (exponent : Int64) (scaleInverse : Scalar), base ≠ 0 →
      exponent ≠ Int64.minValue →
      ∃ v, S.mulSignedPow product base exponent.toInt scaleInverse = .ok v ∧
        S.mulSignedPow v base (-exponent).toInt scaleInverse = .ok product) ∧
    (∀ n : UInt64, Scalar.ofUnsigned read n = .ok (Scalar.ofNat n.toNat) ∧
      (Scalar.ofNat n.toNat).val = n.toNat % groupOrder) ∧
    ∀ n : Int64,
      Scalar.ofUnsigned read (.ofNat n.toInt.natAbs) = .ok (Scalar.ofNat n.toInt.natAbs) ∧
      Scalar.ofSigned read n = .ok (Scalar.ofInt n.toInt) ∧
      ((Scalar.ofInt n.toInt).val : ℤ) = n.toInt % groupOrder := by
  refine ⟨fun factors scale hfactors hpos hlt => ?_,
    fun product base exponent scaleInverse hbase hexponent => ?_,
    fun n => ⟨hread.ofUnsigned_eq n, rfl⟩,
    fun n => ⟨hread.ofUnsigned_natAbs_eq n, hread.ofSigned_eq n, Scalar.val_ofInt n.toInt⟩⟩
  · have hne : (scale : Scalar) ≠ 0 := by
      intro hzero
      have hle := Nat.le_of_dvd hpos (Fin.natCast_eq_zero.mp hzero)
      exact absurd (hle.trans_lt hlt) (by decide)
    obtain ⟨scaleInverse, hinverse, hscale⟩ := Scalar.inverse?_eq_some hne
    obtain ⟨P, horder, hpower, hproduct⟩ := Suite.exists_product hS hscale hfactors
    exact ⟨scaleInverse, hinverse, hscale, P, hpower, horder,
      fun Q hQ hP => eq_of_pow_scale_eq hscale hQ horder hP, hproduct⟩
  · rw [toInt_neg_of_ne_minValue hexponent]
    exact Suite.exists_mulSignedPow_neg hS hbase product exponent.toInt

/-! ## The values of the curve -/

instance : CommGroupWithZero bn254.Gt :=
  inferInstanceAs (CommGroupWithZero Dodecic)

theorem inField_bn254 : bn254.gt.InField where
  one := rfl
  mul _ _ := rfl
  inverse hv := if_neg hv

/-- On the curve, two values of the order of the groups are multiplied up with the exponents
`-2^63` and 9 over the scale 6, in both orders. The exponents 7 and -7 cancel for a base that has
another order. -/
theorem curve_values_accumulate :
    (∃ ζ P : bn254.Gt, ∃ scaleInverse, ζ ≠ 1 ∧ ζ ^ groupOrder = 1 ∧
      (Scalar.ofNat 6).inverse? = some scaleInverse ∧
      P ^ 6 = ζ ^ (-2 ^ 63 : ℤ) * (ζ ^ 2) ^ (9 : ℤ) ∧
      ∀ start : bn254.Gt,
        bn254.mulSignedPows scaleInverse start [(ζ, -2 ^ 63), (ζ ^ 2, 9)] = .ok (start * P) ∧
        bn254.mulSignedPows scaleInverse start [(ζ ^ 2, 9), (ζ, -2 ^ 63)] = .ok (start * P)) ∧
    (∃ base : bn254.Gt, base ≠ 0 ∧ base ^ groupOrder ≠ 1 ∧ ∀ product scaleInverse,
      ∃ v, bn254.mulSignedPow product base 7 scaleInverse = .ok v ∧
        bn254.mulSignedPow v base (-7) scaleInverse = .ok product) ∧
    Scalar.ofUnsigned Scalar.ofDecimal? 10 = .ok (Scalar.ofNat 10) ∧
    Scalar.ofSigned Scalar.ofDecimal? Int64.minValue = .ok (-Scalar.ofNat (2 ^ 63)) := by
  obtain ⟨hproduct, hcancel, hunsigned, hsigned⟩ :=
    signed_powers_accumulate inField_bn254 readsDecimals_ofDecimal?
  obtain ⟨ζ, hne, hζ⟩ : ∃ ζ : bn254.Gt, ζ ≠ 1 ∧ ζ ^ groupOrder = 1 := Dodecic.exists_pow_eq_one
  have hζ2 : (ζ ^ 2) ^ groupOrder = 1 := by
    rw [← pow_mul, mul_comm, pow_mul, hζ, one_pow]
  obtain ⟨scaleInverse, hinverse, -, P, hpower, -, -, hfold⟩ :=
    hproduct [(ζ, -2 ^ 63), (ζ ^ 2, 9)] 6 (by simpa using ⟨hζ, hζ2⟩) (by decide) (by decide)
  have hpower' : P ^ 6 = ζ ^ (-2 ^ 63 : ℤ) * (ζ ^ 2) ^ (9 : ℤ) := by
    rw [hpower, List.map_cons, List.map_cons, List.map_nil, List.prod_cons, List.prod_singleton]
  let base : Dodecic := ⟨⟨⟨-1, 0⟩, 0, 0⟩, 0⟩
  have hbase : base ≠ 0 := by decide +kernel
  have horder : base ^ groupOrder ≠ 1 := by
    have hsq : base * base = 1 := by decide +kernel
    have hodd : groupOrder = 2 * (groupOrder / 2) + 1 := by decide
    rw [hodd, pow_succ, pow_mul, sq, hsq, one_pow, one_mul]
    decide +kernel
  refine ⟨⟨ζ, P, scaleInverse, hne, hζ, hinverse, hpower', fun start =>
      ⟨hfold start _ (.refl _), hfold start _ (.swap _ _ _)⟩⟩,
    ⟨base, hbase, horder, fun product k => hcancel product base 7 k hbase (by decide)⟩,
    (hunsigned 10).1, (hsigned Int64.minValue).2.1⟩

end AttributeEncryption
