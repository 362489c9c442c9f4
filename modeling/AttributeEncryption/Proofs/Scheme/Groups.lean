import AttributeEncryption.Proofs.Powers
import AttributeEncryption.Proofs.Scalars
import AttributeEncryption.Suite
import Mathlib.Algebra.Algebra.Bilinear
import Mathlib.LinearAlgebra.BilinearMap

/-!
# Groups behind a suite

A suite names operations without laws. `Suite.Model` gives them their meaning : points and
pairing values stand for elements of abelian groups whose exponent is the group order, which
are modules over the scalars, and the pairing stands for a bilinear map. Several points may
stand for one element; a pairing value stands for one only.

Multiples, powers and signed powers are then those of the modules
(`PointGroup.Model.stands_multiple`, `ValueGroup.Model.pow_value`,
`Suite.Model.mulSignedPow_value`). Exponents modulo the group order have a model
(`exponentsModel`).
-/

open scoped Fin.CommRing

namespace AttributeEncryption

/-! ## Models -/

/-- The elements of a group that points stand for. -/
structure PointGroup.Model {P : Type} (g : PointGroup P) (X : Type) [AddCommGroup X]
    [Module Scalar X] where
  /-- The point stands for the element. -/
  stands : P → X → Prop
  /-- The neutral point stands for 0. -/
  zero : stands g.zero 0
  /-- Sums stand for sums. -/
  add : ∀ {p q : P} {x y : X}, stands p x → stands q y → stands (g.add p q) (x + y)
  /-- Inverses stand for inverses. -/
  neg : ∀ {p : P} {x : X}, stands p x → stands (g.neg p) (-x)
  /-- The generator stands for some element. -/
  generator : ∃ x, stands g.generator x

/-- The pairing values of the elements of a group, written additively. -/
structure ValueGroup.Model {V : Type} (g : ValueGroup V) (X : Type) [AddCommGroup X]
    [Module Scalar X] where
  /-- The value that stands for an element. -/
  value : X → V
  /-- The neutral value stands for 0. -/
  one : g.one = value 0
  /-- Products stand for sums. -/
  mul : ∀ x y : X, g.mul (value x) (value y) = value (x + y)
  /-- Every value that stands for an element has an inverse, which stands for its inverse. -/
  inverse : ∀ x : X, g.inverse? (value x) = some (value (-x))

/-- The groups behind a suite, and the bilinear map behind its pairing. -/
structure Suite.Model (S : Suite) (X₁ X₂ X : Type) [AddCommGroup X₁] [Module Scalar X₁]
    [AddCommGroup X₂] [Module Scalar X₂] [AddCommGroup X] [Module Scalar X] where
  /-- The first group. -/
  first : S.g1.Model X₁
  /-- The second group. -/
  second : S.g2.Model X₂
  /-- The group of values. -/
  values : S.gt.Model X
  /-- The bilinear map. -/
  e : X₁ →ₗ[Scalar] X₂ →ₗ[Scalar] X
  /-- The pairing of two points is the value of the bilinear map. -/
  pair : ∀ {p : S.G1} {q : S.G2} {x : X₁} {y : X₂}, first.stands p x → second.stands q y →
    S.pair p q = values.value (e x y)

/-! ## Multiples and powers -/

theorem val_smul {X : Type} [AddCommGroup X] [Module Scalar X] (k : Scalar) (x : X) :
    k.val • x = k • x := by
  rw [← Nat.cast_smul_eq_nsmul Scalar, Fin.cast_val_eq_self]

namespace PointGroup.Model

variable {P X : Type} [AddCommGroup X] [Module Scalar X] {g : PointGroup P}

theorem stands_multiple (M : g.Model X) {p : P} {x : X} (h : M.stands p x) (k : Scalar) :
    M.stands (g.multiple p k) (k • x) := by
  have hpower := power_spec (R := fun q n => M.stands q (n • x)) (by simpa using M.zero)
    (fun hp hq => by
      rw [add_nsmul]
      exact M.add hp hq) (by simpa using h) k.val
  rwa [val_smul] at hpower

theorem exists_stands_multiple (M : g.Model X) (k : Scalar) :
    ∃ x, M.stands (g.multiple g.generator k) x := by
  obtain ⟨x, hx⟩ := M.generator
  exact ⟨_, M.stands_multiple hx k⟩

end PointGroup.Model

namespace ValueGroup.Model

variable {V X : Type} [AddCommGroup X] [Module Scalar X] {g : ValueGroup V}

theorem pow_value (M : g.Model X) (x : X) (k : Scalar) :
    g.pow (M.value x) k = M.value (k • x) := by
  have hpower := @power_spec _ g.mul g.one _ (fun v n => v = M.value (n • x))
    (by rw [zero_nsmul, M.one]) (fun hp hq => by rw [hp, hq, M.mul, add_nsmul])
    (by rw [one_nsmul]) k.val
  rwa [val_smul] at hpower

/-- The difference of elements with one value has the neutral value. -/
theorem value_sub_eq_one (M : g.Model X) {x y : X} (h : M.value x = M.value y) :
    M.value (x - y) = g.one := by
  rw [sub_eq_add_neg, ← M.mul, h, M.mul, add_neg_cancel, M.one]

end ValueGroup.Model

namespace Suite.Model

variable {S : Suite} {X₁ X₂ X : Type} [AddCommGroup X₁] [Module Scalar X₁] [AddCommGroup X₂]
  [Module Scalar X₂] [AddCommGroup X] [Module Scalar X]

theorem stands_sub1 (M : S.Model X₁ X₂ X) {p q : S.G1} {x y : X₁} (hp : M.first.stands p x)
    (hq : M.first.stands q y) : M.first.stands (S.sub1 p q) (x - y) := by
  rw [sub_eq_add_neg]
  exact M.first.add hp (M.first.neg hq)

/-- A signed power never fails, and negative exponents are inverses. -/
theorem mulSignedPow_value (M : S.Model X₁ X₂ X) (x y : X) (exponent : ℤ) (k : Scalar) :
    S.mulSignedPow (M.values.value x) (M.values.value y) exponent k =
      .ok (M.values.value (x + ((exponent : Scalar) * k) • y)) := by
  unfold mulSignedPow
  simp only
  rw [M.values.pow_value, Scalar.ofNat_eq_cast]
  split_ifs with hneg
  · obtain ⟨n, rfl⟩ := Int.exists_eq_neg_ofNat hneg.le
    rw [M.values.inverse]
    simp only [M.values.mul, Int.natAbs_neg, Int.natAbs_natCast, Int.cast_neg, Int.cast_natCast,
      neg_mul, neg_smul]
  · obtain ⟨n, rfl⟩ := Int.eq_ofNat_of_zero_le (not_lt.mp hneg)
    rw [M.values.mul, Int.natAbs_natCast, Int.cast_natCast]

end Suite.Model

/-! ## The model of exponents -/

/-- Scalars in place of the points. -/
def exponentGroup : PointGroup Scalar where
  zero := 0
  add := (· + ·)
  neg := (- ·)
  same := (· == ·)
  generator := 1
  codec := Scalar.codec

/-- Everything is given by its exponent, and the pairing multiplies exponents. -/
def exponents : Suite where
  G1 := Scalar
  G2 := Scalar
  Gt := Scalar
  g1 := exponentGroup
  g2 := exponentGroup
  gt :=
    { one := 0
      mul := (· + ·)
      inverse? := fun k => some (-k)
      decEq := inferInstance
      codec := Scalar.codec }
  pair := (· * ·)

/-- Points are the exponents that they stand for. -/
def exponentGroupModel : exponentGroup.Model Scalar where
  stands := Eq
  zero := rfl
  add := by
    rintro p q x y rfl rfl
    rfl
  neg := by
    rintro p x rfl
    rfl
  generator := ⟨1, rfl⟩

/-- The pairing of the exponents is bilinear. -/
def exponentsModel : exponents.Model Scalar Scalar Scalar where
  first := exponentGroupModel
  second := exponentGroupModel
  values :=
    { value := id
      one := rfl
      mul := fun x y => rfl
      inverse := fun x => rfl }
  e := LinearMap.mul Scalar Scalar
  pair := by
    rintro p q x y rfl rfl
    rfl

end AttributeEncryption
