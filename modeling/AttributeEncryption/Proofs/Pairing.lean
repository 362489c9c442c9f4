import AttributeEncryption.Curve.Pairing
import AttributeEncryption.Proofs.Tower

/-!
# Pairing values other than 0

A pairing value is the final power of a product of lines. The final power is made of products,
inverses, conjugates and images under the field automorphism, and none of them makes 0 of anything
else. So a pairing value is 0 exactly if the product of the lines is (`pairing_eq_zero_iff`), and it
never is if one of the points is neutral.

For the generators the lines are multiplied up (`pairing_generator_ne_zero`).
-/

open scoped Fin.CommRing

namespace AttributeEncryption

/-! ## The tower -/

instance : IsDomain Quadratic :=
  Quadratic.isField.isDomain

@[simp] theorem Quadratic.conjugate_eq_zero {a : Quadratic} : a.conjugate = 0 ↔ a = 0 := by
  rw [Quadratic.ext_iff, Quadratic.ext_iff (x := a)]
  exact and_congr_right fun _ => neg_eq_zero

namespace Dodecic

@[simp] theorem conjugate_eq_zero {a : Dodecic} : a.conjugate = 0 ↔ a = 0 := by
  rw [Dodecic.ext_iff, Dodecic.ext_iff (x := a)]
  exact and_congr_right fun _ => neg_eq_zero

@[simp] theorem inverse_eq_zero {a : Dodecic} : a.inverse = 0 ↔ a = 0 :=
  inv_eq_zero (a := a)

theorem twistPower_ne_zero (n : ℕ) : twistPower n ≠ 0 := by
  have hresidue : Quadratic.residue ≠ 0 := by decide
  rw [twistPower, power_eq_pow]
  exact pow_ne_zero _ hresidue

/-- The coefficients are conjugated and multiplied with factors other than 0. -/
@[simp] theorem frobenius_eq_zero {a : Dodecic} : a.frobenius = 0 ↔ a = 0 := by
  have htwist (n : ℕ) (b : Quadratic) : b.conjugate * twistPower n = 0 ↔ b = 0 := by
    rw [mul_eq_zero, or_iff_left (twistPower_ne_zero n), Quadratic.conjugate_eq_zero]
  simp only [frobenius, twist1, twist2, twist3, twist4, twist5, zero_def, Sextic.zero_def,
    Dodecic.ext_iff, Sextic.ext_iff, htwist, Quadratic.conjugate_eq_zero]

end Dodecic

/-! ## The final power -/

namespace Pairing

@[simp] theorem powParameter_eq_zero {f : Dodecic} : powParameter f = 0 ↔ f = 0 := by
  have hparameter : curveParameter ≠ 0 := by
    unfold curveParameter
    omega
  rw [powParameter, power_eq_pow, pow_eq_zero_iff hparameter]

theorem easyPower_eq_zero {f : Dodecic} : easyPower f = 0 ↔ f = 0 := by
  simp [easyPower]

theorem hardPower_eq_zero {f : Dodecic} : hardPower f = 0 ↔ f = 0 := by
  simp [hardPower]

end Pairing

/-! ## Pairing values -/

/-- A pairing value is 0 exactly if the points are not neutral and the product of their lines
is 0. -/
theorem pairing_eq_zero_iff {p : CurvePoint} {q : TwistPoint} :
    pairing p q = 0 ↔ ∃ p' q', p.affine? = some p' ∧ q.affine? = some q' ∧
      Pairing.lines p'.x p'.y q'.x q'.y = 0 := by
  have hone : (1 : Dodecic) ≠ 0 := one_ne_zero
  unfold pairing
  cases hp : p.affine? with
  | none => simp [hone]
  | some p' =>
    cases hq : q.affine? with
    | none => simp [hone]
    | some q' => simp [Pairing.hardPower_eq_zero, Pairing.easyPower_eq_zero]

/-- A point whose last coordinate is 1 keeps its coordinates. -/
theorem Jacobian.affine?_ofAffine {F : Type} [CurveField F] [DecidableEq F] (hone : (1 : F) ≠ 0)
    (hinverse : CurveField.inverse (1 : F) = 1) (hmul : ∀ x : F, x * 1 = x) (x y : F) :
    (ofAffine x y).affine? = some (ofAffine x y) := by
  have hzero : ¬ (ofAffine x y).isZero = true := fun h => hone (of_decide_eq_true h)
  have hk : CurveField.inverse (ofAffine x y).z = 1 := hinverse
  rw [affine?, if_neg hzero]
  simp only [hk, hmul]
  rfl

theorem pairing_ofAffine_eq_zero_iff {x y : Base} {qx qy : Quadratic} :
    pairing (.ofAffine x y) (.ofAffine qx qy) = 0 ↔ Pairing.lines x y qx qy = 0 := by
  have hbase : Residue.inverse (1 : Base) = 1 := by rw [Residue.inverse_eq_pow, one_pow]
  have hne : (1 : Base) ≠ 0 := by decide
  have hne' : (1 : Quadratic) ≠ 0 := by decide
  have hquadratic : (1 : Quadratic).inverse = 1 := by
    rw [← one_mul (Quadratic.inverse 1), Quadratic.mul_inverse hne']
  have hp := Jacobian.affine?_ofAffine hne hbase (fun a => mul_one a) x y
  have hq := Jacobian.affine?_ofAffine hne' hquadratic (fun a => mul_one a) qx qy
  rw [pairing_eq_zero_iff, hp, hq]
  simp [Jacobian.ofAffine]

/-- The lines of the generators are not 0. -/
theorem pairing_generator_ne_zero : pairing CurvePoint.generator TwistPoint.generator ≠ 0 := by
  unfold CurvePoint.generator TwistPoint.generator
  rw [Ne, pairing_ofAffine_eq_zero_iff]
  decide +kernel

end AttributeEncryption
