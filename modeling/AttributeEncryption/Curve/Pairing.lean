import AttributeEncryption.Curve.Jacobian
import AttributeEncryption.Curve.Tower

/-!
# The pairing

The curve `y² = x³ + 3` over the base field and its twist `y² = x³ + 3 / (9 + u)` over
the quadratic extension. `pairing p q` multiplies up the lines of the loop that computes
`(6z + 2) q`, two more lines for the images of `q` under the field automorphism, and
raises the product to `((fieldOrder ^ 12 - 1) / groupOrder) · 2z(6z² + 3z + 1)`. A line
may be off by a factor in a proper subfield, since the power maps such factors to 1.
-/

namespace AttributeEncryption

instance : CurveField Base where
  zero := 0
  one := 1
  add a b := a + b
  sub a b := a - b
  mul a b := a * b
  neg a := -a
  inverse := Residue.inverse

instance : CurveField Quadratic where
  inverse := Quadratic.inverse

/-- A point of the curve. -/
abbrev CurvePoint := Jacobian Base

/-- A point of the twist. -/
abbrev TwistPoint := Jacobian Quadratic

namespace CurvePoint

/-- The generator of the curve. -/
def generator : CurvePoint :=
  .ofAffine 1 2

/-- The byte form of a point of the curve. -/
def codec : Codec CurvePoint :=
  Jacobian.codec Base.codec

end CurvePoint

namespace TwistPoint

/-- The generator of the subgroup of the twist. -/
def generator : TwistPoint :=
  .ofAffine
    ⟨10857046999023057135944570762232829481370756359578518086990519993285655852781,
      11559732032986387107991004021392285783925812861821192530917403151452391805634⟩
    ⟨8495653923123431417604973247489272438418190587263600148770280649306958101930,
      4082367875863433681332203403145435568316851327593401208105741076214120093531⟩

/-- The byte form of a point of the twist. -/
def codec : Codec TwistPoint :=
  Jacobian.codec Quadratic.codec

end TwistPoint

namespace Pairing

/-- The parameter from which the orders of the curve are made. -/
def curveParameter : Nat :=
  4965661367192848881

/-! ## Lines -/

/-- The value `constant + slope · w + offset · w³` of a line at a point of the curve. -/
structure Line where
  /-- The part without `w`. -/
  constant : Quadratic
  /-- The coefficient of `w`. -/
  slope : Quadratic
  /-- The coefficient of `w³`. -/
  offset : Quadratic

/-- The product of an element with a line. -/
def Line.times (l : Line) (f : Dodecic) : Dodecic :=
  f * ⟨⟨l.constant, 0, 0⟩, ⟨l.slope, l.offset, 0⟩⟩

/-- The tangent at `t`, at the affine point `(x, y)` of the curve. -/
def tangent (t : TwistPoint) (x y : Base) : Line :=
  let xx := t.x * t.x
  let yy := t.y * t.y
  let zz := t.z * t.z
  let yz := t.y * t.z * zz
  let xx3 := xx + xx + xx
  { constant := (yz + yz).scale y
    slope := -((xx3 * zz).scale x)
    offset := xx3 * t.x - (yy + yy) }

/-- The line through `t` and the affine point `(qx, qy)` of the twist, at the affine
point `(x, y)` of the curve. -/
def chord (t : TwistPoint) (qx qy : Quadratic) (x y : Base) : Line :=
  let zz := t.z * t.z
  let h := qx * zz - t.x
  let r := qy * (zz * t.z) - t.y
  let k := t.z * h
  { constant := k.scale y
    slope := -(r.scale x)
    offset := r * qx - k * qy }

/-! ## The loop -/

/-- The binary digits of a number below its leading one, the highest first. -/
def lowerDigits (n : Nat) : List Bool :=
  (List.range n.log2).reverse.map n.testBit

/-- One round of the loop: the point is doubled, and for a digit 1 the affine point
`(qx, qy)` is added; the lines that do this are multiplied up. -/
def round (qx qy : Quadratic) (x y : Base) (state : Dodecic × TwistPoint) (digit : Bool) :
    Dodecic × TwistPoint :=
  let (f, t) := state
  let f := (tangent t x y).times (f * f)
  let t := t.double
  if digit then ((chord t qx qy x y).times f, t.add (.ofAffine qx qy)) else (f, t)

/-- The product of all lines for affine points of the curve and of the twist. -/
def lines (x y : Base) (qx qy : Quadratic) : Dodecic :=
  let (f, t) := (lowerDigits (6 * curveParameter + 2)).foldl (round qx qy x y)
    (1, .ofAffine qx qy)
  let q1x := qx.conjugate * Dodecic.twist2
  let q1y := qy.conjugate * Dodecic.twist3
  let q2x := q1x.conjugate * Dodecic.twist2
  let q2y := -(q1y.conjugate * Dodecic.twist3)
  let f := (chord t q1x q1y x y).times f
  let t := t.add (.ofAffine q1x q1y)
  (chord t q2x q2y x y).times f

/-! ## The final power -/

/-- The power with the curve parameter. -/
def powParameter (f : Dodecic) : Dodecic :=
  power (· * ·) 1 f curveParameter

/-- The power with `(fieldOrder ^ 6 - 1) · (fieldOrder ^ 2 + 1)`. -/
def easyPower (f : Dodecic) : Dodecic :=
  let g := f.conjugate * f.inverse
  g.frobenius.frobenius * g

/-- The power with `(fieldOrder ^ 4 - fieldOrder ^ 2 + 1) / groupOrder · 2z(6z² + 3z + 1)`,
which in base `fieldOrder` has the digits `1 + 6z + 12z² + 12z³`, `4z + 6z² + 12z³`,
`6z + 6z² + 12z³` and `-1 + 4z + 6z² + 12z³`. Here conjugation inverts. -/
def hardPower (f : Dodecic) : Dodecic :=
  let z1 := powParameter f
  let z2 := powParameter z1
  let z3 := powParameter z2
  let square (g : Dodecic) := g * g
  let z1x2 := square z1
  let z1x4 := square z1x2
  let z2x6 := square (z2 * square z2)
  let z3x12 := square (square (z3 * square z3))
  let high := z1x4 * z2x6 * z3x12
  let digit0 := f * z1x2 * z1x4 * square z2x6 * z3x12
  let digit2 := high * z1x2
  let digit3 := f.conjugate * high
  digit0 * high.frobenius * digit2.frobenius.frobenius *
    digit3.frobenius.frobenius.frobenius

end Pairing

/-- The pairing of a point of the curve with a point of the twist; 1 if one of them is
neutral. -/
def pairing (p : CurvePoint) (q : TwistPoint) : Dodecic :=
  match p.affine?, q.affine? with
  | some p, some q => Pairing.hardPower (Pairing.easyPower (Pairing.lines p.x p.y q.x q.y))
  | _, _ => 1

end AttributeEncryption
