import AttributeEncryption.Algebra.Residue
import AttributeEncryption.Curve.Pairing
import AttributeEncryption.Randomness

/-!
# Pairing suites

What the scheme needs of its groups: two groups of points, a group of pairing values and
the pairing between them. A `Suite` names these operations without any law, so that the
scheme is one definition for the curve it runs on and for every other model of the groups.

One point may have several representations, which `PointGroup.same` identifies; a byte
form belongs to a representation. Pairing values have one representation each.
-/

namespace AttributeEncryption

/-- A group of points, written additively. -/
structure PointGroup (P : Type) where
  /-- The neutral element. -/
  zero : P
  /-- The sum of two points. -/
  add : P → P → P
  /-- The inverse of a point. -/
  neg : P → P
  /-- Whether two representations stand for one point. -/
  same : P → P → Bool
  /-- A generator of the group. -/
  generator : P
  /-- The byte form of a representation. -/
  codec : Codec P

/-- The multiple of a point. -/
def PointGroup.multiple {P : Type} (g : PointGroup P) (p : P) (k : Scalar) : P :=
  power g.add g.zero p k.val

/-- A group of pairing values inside a field, written multiplicatively. -/
structure ValueGroup (V : Type) where
  /-- The neutral element. -/
  one : V
  /-- The product of two values. -/
  mul : V → V → V
  /-- The inverse of a value, which the field's zero does not have. -/
  inverse? : V → Option V
  /-- Equality of values can be tested. -/
  decEq : DecidableEq V
  /-- The byte form of a value. -/
  codec : Codec V

/-- The power of a value. -/
def ValueGroup.pow {V : Type} (g : ValueGroup V) (v : V) (k : Scalar) : V :=
  power g.mul g.one v k.val

/-- The groups of a pairing. -/
structure Suite where
  /-- The points of the first group. -/
  G1 : Type
  /-- The points of the second group. -/
  G2 : Type
  /-- The pairing values. -/
  Gt : Type
  /-- The first group. -/
  g1 : PointGroup G1
  /-- The second group. -/
  g2 : PointGroup G2
  /-- The group of values. -/
  gt : ValueGroup Gt
  /-- The pairing. -/
  pair : G1 → G2 → Gt

instance (S : Suite) : DecidableEq S.Gt :=
  S.gt.decEq

/-- The suite of the curve `y² = x³ + 3`. -/
def bn254 : Suite where
  G1 := CurvePoint
  G2 := TwistPoint
  Gt := Dodecic
  g1 :=
    { zero := Jacobian.zero
      add := Jacobian.add
      neg := Jacobian.neg
      same := Jacobian.same
      generator := CurvePoint.generator
      codec := CurvePoint.codec }
  g2 :=
    { zero := Jacobian.zero
      add := Jacobian.add
      neg := Jacobian.neg
      same := Jacobian.same
      generator := TwistPoint.generator
      codec := TwistPoint.codec }
  gt :=
    { one := 1
      mul := Dodecic.mul
      inverse? := Dodecic.inverse?
      decEq := inferInstance
      codec := Dodecic.codec }
  pair := pairing

/-! ## Signed powers -/

namespace Suite

variable (S : Suite)

/-- The value `base ^ (exponent · scaleInverse)` multiplied to `product`. A negative
exponent divides by the power with its magnitude; dividing by the field's zero fails. -/
def mulSignedPow (product base : S.Gt) (exponent : Int) (scaleInverse : Scalar) :
    Except Failure S.Gt :=
  let factor := S.gt.pow base (Scalar.ofNat exponent.natAbs * scaleInverse)
  if exponent < 0 then
    match S.gt.inverse? factor with
    | some inverse => .ok (S.gt.mul product inverse)
    | none => .error .noInverse
  else .ok (S.gt.mul product factor)

/-- The difference of two points of the first group. -/
def sub1 (p q : S.G1) : S.G1 :=
  S.g1.add p (S.g1.neg q)

end Suite

/-- Draws a random point of a group. -/
def PointGroup.random {P : Type} (g : PointGroup P) : Draw P := do
  let k ← Randomness.pointScalar
  return g.multiple g.generator k

end AttributeEncryption
