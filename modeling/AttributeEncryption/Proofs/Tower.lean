import AttributeEncryption.Curve.Tower
import AttributeEncryption.Proofs.FieldOrder
import AttributeEncryption.Proofs.GroupOrder
import Mathlib.Algebra.Ring.MinimalAxioms
import Mathlib.GroupTheory.Perm.Cycle.Type
import Mathlib.Tactic.FieldSimp
import Mathlib.Tactic.LinearCombination

/-!
# The extension tower

Every step of the tower is a field, and what is computed as an inverse is one
(`Quadratic.mul_inverse`, `Sextic.mul_inverse`, `Dodecic.mul_inverse`). The field at the top
has an element of the order of the groups (`Dodecic.exists_pow_eq_one`).

Inverses are taken by dividing by norms, so what is to be shown is that only 0 has the norm 0. The
norm of an extension by a square root of `d` is `a² - d b²`, which vanishes for `a = b = 0` only
if `d` is not a square (`eq_zero_of_square`). Likewise for the extension by a cube root
(`eq_zero_of_cubicNorm`). That `9 + u` is neither a square nor a cube, and that `v` is not a square,
is seen in the base field : what has a root has a norm with a root (`pow_ne_of_map`), `v` has the
norm `9 + u` and this the norm 82, which has no roots there.
-/

open scoped Fin.CommRing

namespace AttributeEncryption

attribute [ext] Quadratic Sextic Dodecic

/-! ## Norms -/

section Norms

variable {K : Type} [CommRing K] {a b c d : K}

/-- If `d` is not a square, the norm `a² - d b²` vanishes for 0 only : otherwise `a / b` would be a
root of `d`. -/
theorem eq_zero_of_square (hK : IsField K) (hd : ∀ x : K, x ^ 2 ≠ d) (h : a * a = d * (b * b)) :
    a = 0 ∧ b = 0 := by
  let _ := hK.toField
  have hb : b = 0 := by
    by_contra hne
    refine hd (a / b) ?_
    rw [div_pow, sq, h, sq, mul_div_cancel_right₀ _ (mul_self_ne_zero.mpr hne)]
  rw [hb, mul_zero, mul_zero, mul_self_eq_zero] at h
  exact ⟨h, hb⟩

/-- If `d` is not a cube, only 0 has a vanishing adjoint : otherwise `b / c` would be a root of
`d`. -/
theorem eq_zero_of_cube (hK : IsField K) (hd : ∀ x : K, x ^ 3 ≠ d) (haa : a * a = d * (b * c))
    (hab : a * b = d * (c * c)) (hbb : b * b = a * c) : a = 0 ∧ b = 0 ∧ c = 0 := by
  let _ := hK.toField
  have hc : c = 0 := by
    by_contra hne
    refine hd (b / c) ?_
    field_simp
    linear_combination b * hbb + c * hab
  rw [hc, mul_zero, mul_self_eq_zero] at hbb
  rw [hc, mul_zero, mul_zero, mul_self_eq_zero] at haa
  exact ⟨haa, hbb, hc⟩

/-- The norm of an element of a cubic extension vanishes for 0 only. The adjoint of the adjoint is
the element times its norm. So if the norm vanishes, the adjoint satisfies the equations of
`eq_zero_of_cube`, and if the adjoint vanishes, so does the element. -/
theorem eq_zero_of_cubicNorm (hK : IsField K) (hd : ∀ x : K, x ^ 3 ≠ d)
    (h : a * (a * a - d * (b * c)) +
      d * (c * (d * (c * c) - a * b) + b * (b * b - a * c)) = 0) : a = 0 ∧ b = 0 ∧ c = 0 := by
  obtain ⟨h0, h1, h2⟩ := eq_zero_of_cube (a := a * a - d * (b * c)) (b := d * (c * c) - a * b)
    (c := b * b - a * c) hK hd (by linear_combination a * h) (by linear_combination -b * h)
    (by linear_combination c * h)
  exact eq_zero_of_cube hK hd (by linear_combination h0) (by linear_combination -h1)
    (by linear_combination h2)

/-- An element has no root if its norm has none. -/
theorem pow_ne_of_map {M N : Type} [Monoid M] [Monoid N] (norm : M →* N) {d : M} {n : ℕ}
    (hd : ∀ y : N, y ^ n ≠ norm d) (x : M) : x ^ n ≠ d := by
  rintro rfl
  exact hd (norm x) (map_pow norm x n).symm

end Norms

/-! ## Sums over the integers -/

namespace Wide

/-- The residue of an integer is its cast. -/
theorem residue_eq_cast (n : ℤ) : residue n = (n : Base) :=
  Fin.ext (Fin.val_intCast n).symm

theorem reduce_add (a b : Wide) : (a + b).reduce = a.reduce + b.reduce := by
  change reduce ⟨a.c0 + b.c0, a.c1 + b.c1⟩ =
    ⟨residue a.c0 + residue b.c0, residue a.c1 + residue b.c1⟩
  simp only [reduce, residue_eq_cast, Int.cast_add]

theorem reduce_mulResidue (a : Wide) : a.mulResidue.reduce = a.reduce.mulResidue := by
  simp only [reduce, mulResidue, Quadratic.mulResidue, residue_eq_cast]
  push_cast
  rfl

end Wide

/-! ## Degree 2 -/

namespace Quadratic

theorem zero_def : (0 : Quadratic) = ⟨0, 0⟩ :=
  rfl

theorem one_def : (1 : Quadratic) = ⟨1, 0⟩ :=
  rfl

theorem add_def (a b : Quadratic) : a + b = ⟨a.c0 + b.c0, a.c1 + b.c1⟩ :=
  rfl

theorem sub_def (a b : Quadratic) : a - b = ⟨a.c0 - b.c0, a.c1 - b.c1⟩ :=
  rfl

theorem neg_def (a : Quadratic) : -a = ⟨-a.c0, -a.c1⟩ :=
  rfl

theorem mul_def (a b : Quadratic) :
    a * b = ⟨a.c0 * b.c0 - a.c1 * b.c1, a.c0 * b.c1 + a.c1 * b.c0⟩ := by
  change (a.wide b).reduce = _
  simp only [wide, Wide.product, Wide.reduce, Wide.residue_eq_cast]
  push_cast
  rfl

instance : CommRing Quadratic :=
  { CommRing.ofMinimalAxioms (R := Quadratic)
      (fun a b c => by ext : 1 <;> simp only [add_def, add_assoc])
      (fun a => by ext : 1 <;> simp only [add_def, zero_def, zero_add])
      (fun a => by ext : 1 <;> simp only [add_def, neg_def, zero_def, neg_add_cancel])
      (fun a b c => by ext : 1 <;> simp only [mul_def] <;> ring)
      (fun a b => by ext : 1 <;> simp only [mul_def] <;> ring)
      (fun a => by ext : 1 <;> simp only [mul_def, one_def] <;> ring)
      (fun a b c => by ext : 1 <;> simp only [mul_def, add_def] <;> ring) with
    sub := fun a b => a - b
    sub_eq_add_neg := fun a b => by
      ext : 1 <;> simp only [sub_def, add_def, neg_def, sub_eq_add_neg] }

theorem mulResidue_eq (a : Quadratic) : a.mulResidue = residue * a := by
  rw [mul_def]
  ext : 1
  · change 9 * a.c0 - a.c1 = 9 * a.c0 - 1 * a.c1
    rw [one_mul]
  · change a.c0 + 9 * a.c1 = 9 * a.c1 + 1 * a.c0
    rw [one_mul, add_comm]

/-- The product of an element with its conjugate. -/
def norm : Quadratic →* Base where
  toFun a := a.c0 * a.c0 + a.c1 * a.c1
  map_one' := rfl
  map_mul' a b := by
    simp only [mul_def]
    ring

theorem norm_def (a : Quadratic) : norm a = a.c0 * a.c0 + a.c1 * a.c1 :=
  rfl

theorem norm_residue : norm residue = 82 :=
  rfl

theorem norm_ne_zero {a : Quadratic} (ha : a ≠ 0) : norm a ≠ 0 := by
  intro h
  have hsquare : a.c0 * a.c0 = -1 * (a.c1 * a.c1) := by
    linear_combination (norm_def a).symm.trans h
  obtain ⟨h0, h1⟩ := eq_zero_of_square Residue.isField Base.sq_ne_neg_one hsquare
  exact ha (Quadratic.ext h0 h1)

/-- Elements other than 0 have an inverse. -/
theorem mul_inverse {a : Quadratic} (ha : a ≠ 0) : a * a.inverse = 1 := by
  have hnorm := Residue.inverse_mul_cancel (norm_ne_zero ha)
  rw [norm_def] at hnorm
  rw [mul_def, inverse, scale, conjugate, one_def]
  ext : 1
  · simp only
    linear_combination hnorm
  · simp only
    ring

theorem isField : IsField Quadratic where
  exists_pair_ne := ⟨0, 1, by decide⟩
  mul_comm := mul_comm
  mul_inv_cancel ha := ⟨_, mul_inverse ha⟩

theorem sq_ne_residue : ∀ x : Quadratic, x ^ 2 ≠ residue := by
  refine pow_ne_of_map norm ?_
  rw [norm_residue]
  exact Base.sq_ne_82

theorem cube_ne_residue : ∀ x : Quadratic, x ^ 3 ≠ residue := by
  refine pow_ne_of_map norm ?_
  rw [norm_residue]
  exact Base.cube_ne_82

/-- An element is a pair of coefficients. -/
def equivProd : Quadratic ≃ Base × Base where
  toFun a := (a.c0, a.c1)
  invFun p := ⟨p.1, p.2⟩
  left_inv _ := rfl
  right_inv _ := rfl

theorem card_eq : Nat.card Quadratic = fieldOrder ^ 2 := by
  rw [Nat.card_congr equivProd, Nat.card_prod, Nat.card_fin, sq]

end Quadratic

/-! ## Degree 6 -/

namespace Sextic

theorem zero_def : (0 : Sextic) = ⟨0, 0, 0⟩ :=
  rfl

theorem one_def : (1 : Sextic) = ⟨1, 0, 0⟩ :=
  rfl

theorem add_def (a b : Sextic) : a + b = ⟨a.c0 + b.c0, a.c1 + b.c1, a.c2 + b.c2⟩ :=
  rfl

theorem sub_def (a b : Sextic) : a - b = ⟨a.c0 - b.c0, a.c1 - b.c1, a.c2 - b.c2⟩ :=
  rfl

theorem neg_def (a : Sextic) : -a = ⟨-a.c0, -a.c1, -a.c2⟩ :=
  rfl

theorem mul_def (a b : Sextic) :
    a * b = ⟨a.c0 * b.c0 + Quadratic.residue * (a.c1 * b.c2 + a.c2 * b.c1),
      a.c0 * b.c1 + a.c1 * b.c0 + Quadratic.residue * (a.c2 * b.c2),
      a.c0 * b.c2 + a.c1 * b.c1 + a.c2 * b.c0⟩ := by
  change mul a b = _
  simp only [mul, Wide.reduce_add, Wide.reduce_mulResidue, Quadratic.mulResidue_eq]
  rfl

instance : CommRing Sextic :=
  { CommRing.ofMinimalAxioms (R := Sextic)
      (fun a b c => by ext : 1 <;> simp only [add_def, add_assoc])
      (fun a => by ext : 1 <;> simp only [add_def, zero_def, zero_add])
      (fun a => by ext : 1 <;> simp only [add_def, neg_def, zero_def, neg_add_cancel])
      (fun a b c => by ext : 1 <;> simp only [mul_def] <;> ring)
      (fun a b => by ext : 1 <;> simp only [mul_def] <;> ring)
      (fun a => by ext : 1 <;> simp only [mul_def, one_def] <;> ring)
      (fun a b c => by ext : 1 <;> simp only [mul_def, add_def] <;> ring) with
    sub := fun a b => a - b
    sub_eq_add_neg := fun a b => by
      ext : 1 <;> simp only [sub_def, add_def, neg_def, sub_eq_add_neg] }

/-- The element `v`. -/
def root : Sextic :=
  ⟨0, 1, 0⟩

theorem mulV_eq (a : Sextic) : a.mulV = root * a := by
  rw [mul_def, mulV, root, Quadratic.mulResidue_eq]
  ext : 1 <;> simp only <;> ring

/-- The product of an element with its two conjugates. -/
def norm : Sextic →* Quadratic where
  toFun a := a.c0 * (a.c0 * a.c0 - Quadratic.residue * (a.c1 * a.c2)) +
    Quadratic.residue * (a.c2 * (Quadratic.residue * (a.c2 * a.c2) - a.c0 * a.c1) +
      a.c1 * (a.c1 * a.c1 - a.c0 * a.c2))
  map_one' := by
    simp only [one_def]
    ring
  map_mul' a b := by
    simp only [mul_def]
    ring

theorem norm_def (a : Sextic) :
    norm a = a.c0 * (a.c0 * a.c0 - Quadratic.residue * (a.c1 * a.c2)) +
      Quadratic.residue * (a.c2 * (Quadratic.residue * (a.c2 * a.c2) - a.c0 * a.c1) +
        a.c1 * (a.c1 * a.c1 - a.c0 * a.c2)) :=
  rfl

theorem norm_root : norm root = Quadratic.residue := by
  rw [norm_def, root]
  ring

theorem norm_ne_zero {a : Sextic} (ha : a ≠ 0) : norm a ≠ 0 := by
  intro h
  obtain ⟨h0, h1, h2⟩ := eq_zero_of_cubicNorm Quadratic.isField Quadratic.cube_ne_residue h
  exact ha (Sextic.ext h0 h1 h2)

/-- Elements other than 0 have an inverse. -/
theorem mul_inverse {a : Sextic} (ha : a ≠ 0) : a * a.inverse = 1 := by
  have hnorm := Quadratic.mul_inverse (norm_ne_zero ha)
  rw [norm_def] at hnorm
  rw [mul_def, inverse, one_def]
  simp only [Quadratic.mulResidue_eq]
  ext : 1
  · simp only
    linear_combination hnorm
  · simp only
    ring
  · simp only
    ring

theorem isField : IsField Sextic where
  exists_pair_ne := ⟨0, 1, by decide⟩
  mul_comm := mul_comm
  mul_inv_cancel ha := ⟨_, mul_inverse ha⟩

theorem sq_ne_root : ∀ x : Sextic, x ^ 2 ≠ root := by
  refine pow_ne_of_map norm ?_
  rw [norm_root]
  exact Quadratic.sq_ne_residue

/-- An element is a triple of coefficients. -/
def equivProd : Sextic ≃ Quadratic × Quadratic × Quadratic where
  toFun a := (a.c0, a.c1, a.c2)
  invFun p := ⟨p.1, p.2.1, p.2.2⟩
  left_inv _ := rfl
  right_inv _ := rfl

theorem card_eq : Nat.card Sextic = fieldOrder ^ 6 := by
  rw [Nat.card_congr equivProd, Nat.card_prod, Nat.card_prod, Quadratic.card_eq, ← pow_add,
    ← pow_add]

end Sextic

/-! ## Degree 12 -/

namespace Dodecic

theorem zero_def : (0 : Dodecic) = ⟨0, 0⟩ :=
  rfl

theorem one_def : (1 : Dodecic) = ⟨1, 0⟩ :=
  rfl

theorem mul_def (a b : Dodecic) :
    a * b = ⟨a.c0 * b.c0 + Sextic.root * (a.c1 * b.c1), a.c0 * b.c1 + a.c1 * b.c0⟩ := by
  change mul a b = _
  rw [mul]
  simp only [Sextic.mulV_eq]
  ext : 1
  · rfl
  · simp only
    ring

theorem norm_ne_zero {a : Dodecic} (ha : a ≠ 0) :
    a.c0 * a.c0 - Sextic.root * (a.c1 * a.c1) ≠ 0 := by
  intro h
  obtain ⟨h0, h1⟩ := eq_zero_of_square Sextic.isField Sextic.sq_ne_root (sub_eq_zero.mp h)
  exact ha (Dodecic.ext h0 h1)

/-- Elements other than 0 have an inverse. -/
theorem mul_inverse {a : Dodecic} (ha : a ≠ 0) : a * a.inverse = 1 := by
  have hnorm := Sextic.mul_inverse (norm_ne_zero ha)
  rw [mul_def, inverse, one_def]
  simp only [Sextic.mulV_eq]
  ext : 1
  · simp only
    linear_combination hnorm
  · simp only
    ring

protected theorem mul_comm (a b : Dodecic) : a * b = b * a := by
  ext : 1 <;> simp only [mul_def] <;> ring

protected theorem one_mul (a : Dodecic) : 1 * a = a := by
  ext : 1 <;> simp only [mul_def, one_def] <;> ring

protected theorem zero_mul (a : Dodecic) : 0 * a = 0 := by
  ext : 1 <;> simp only [mul_def, zero_def] <;> ring

instance : CommGroupWithZero Dodecic where
  mul_assoc a b c := by ext : 1 <;> simp only [mul_def] <;> ring
  mul_comm := Dodecic.mul_comm
  one_mul := Dodecic.one_mul
  mul_one a := (Dodecic.mul_comm a 1).trans (Dodecic.one_mul a)
  zero_mul := Dodecic.zero_mul
  mul_zero a := (Dodecic.mul_comm a 0).trans (Dodecic.zero_mul a)
  exists_pair_ne := ⟨0, 1, by decide⟩
  inv := inverse
  inv_zero := by decide +kernel
  mul_inv_cancel _ := mul_inverse

/-- An element is a pair of coefficients. -/
def equivProd : Dodecic ≃ Sextic × Sextic where
  toFun a := (a.c0, a.c1)
  invFun p := ⟨p.1, p.2⟩
  left_inv _ := rfl
  right_inv _ := rfl

theorem card_eq : Nat.card Dodecic = fieldOrder ^ 12 := by
  rw [Nat.card_congr equivProd, Nat.card_prod, Sextic.card_eq, ← pow_add]

instance : Finite Dodecic :=
  Nat.finite_of_card_ne_zero (card_eq ▸ pow_ne_zero 12 (NeZero.ne fieldOrder))

/-- The order of the groups divides the number of elements other than 0, so one of them has this
order. -/
theorem exists_pow_eq_one : ∃ ζ : Dodecic, ζ ≠ 1 ∧ ζ ^ groupOrder = 1 := by
  have hdvd : groupOrder ∣ Nat.card Dodecicˣ := by
    rw [Nat.card_units, card_eq]
    decide +kernel
  obtain ⟨ζ, hζ⟩ := exists_prime_orderOf_dvd_card' groupOrder hdvd
  refine ⟨ζ, fun hone => ?_, ?_⟩
  · rw [Units.val_eq_one.mp hone, orderOf_one] at hζ
    exact prime_groupOrder.one_lt.ne hζ
  · rw [← Units.val_pow_eq_pow_val, ← hζ, pow_orderOf_eq_one, Units.val_one]

end Dodecic

end AttributeEncryption
