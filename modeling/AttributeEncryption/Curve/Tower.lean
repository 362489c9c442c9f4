import AttributeEncryption.Algebra.Residue

/-!
# The extension tower

`Quadratic` is the base field with a root `u` of `u² = -1`, `Sextic` extends it by a root
`v` of `v³ = 9 + u`, and `Dodecic` extends that by a root `w` of `w² = v`. The target
group of the pairing lies in `Dodecic`.
-/

namespace AttributeEncryption

/-! ## Degree 2 -/

/-- The element `c0 + c1 · u`. -/
structure Quadratic where
  /-- The part without `u`. -/
  c0 : Base
  /-- The coefficient of `u`. -/
  c1 : Base
  deriving DecidableEq

/-- A sum of products `c0 + c1 · u` over the integers, which is reduced when it is
complete. -/
structure Wide where
  /-- The part without `u`. -/
  c0 : Int
  /-- The coefficient of `u`. -/
  c1 : Int

namespace Wide

/-- The product of `a0 + a1 · u` and `b0 + b1 · u`. -/
def product (a0 a1 b0 b1 : Nat) : Wide :=
  ⟨(a0 * b0 : Nat) - (a1 * b1 : Nat), (a0 * b1 + a1 * b0 : Nat)⟩

instance : Add Wide := ⟨fun a b => ⟨a.c0 + b.c0, a.c1 + b.c1⟩⟩

/-- The product with `9 + u`. -/
def mulResidue (a : Wide) : Wide :=
  ⟨9 * a.c0 - a.c1, a.c0 + 9 * a.c1⟩

/-- The residue of an integer. -/
def residue (n : Int) : Base :=
  ⟨(n % fieldOrder).toNat, by
    have : 0 ≤ n % fieldOrder := Int.emod_nonneg n (by decide)
    have : n % fieldOrder < fieldOrder := Int.emod_lt_of_pos n (by decide)
    omega⟩

/-- The element that a sum stands for. -/
def reduce (a : Wide) : Quadratic :=
  ⟨residue a.c0, residue a.c1⟩

end Wide

namespace Quadratic

instance : Zero Quadratic := ⟨⟨0, 0⟩⟩

instance : One Quadratic := ⟨⟨1, 0⟩⟩

instance : Add Quadratic := ⟨fun a b => ⟨a.c0 + b.c0, a.c1 + b.c1⟩⟩

instance : Sub Quadratic := ⟨fun a b => ⟨a.c0 - b.c0, a.c1 - b.c1⟩⟩

instance : Neg Quadratic := ⟨fun a => ⟨-a.c0, -a.c1⟩⟩

/-- The product over the integers. -/
def wide (a b : Quadratic) : Wide :=
  .product a.c0.val a.c1.val b.c0.val b.c1.val

/-- The product. -/
def mul (a b : Quadratic) : Quadratic :=
  (a.wide b).reduce

instance : Mul Quadratic := ⟨mul⟩

/-- The product with an element of the base field. -/
def scale (k : Base) (a : Quadratic) : Quadratic :=
  ⟨k * a.c0, k * a.c1⟩

/-- The image under `u ↦ -u`, which is also the power with the field order. -/
def conjugate (a : Quadratic) : Quadratic :=
  ⟨a.c0, -a.c1⟩

/-- The inverse; 0 for 0. -/
def inverse (a : Quadratic) : Quadratic :=
  a.conjugate.scale (Residue.inverse (a.c0 * a.c0 + a.c1 * a.c1))

/-- The element `9 + u`, whose cube root is `v`. -/
def residue : Quadratic :=
  ⟨9, 1⟩

/-- The product with `9 + u`. -/
def mulResidue (a : Quadratic) : Quadratic :=
  ⟨9 * a.c0 - a.c1, a.c0 + 9 * a.c1⟩

/-- The byte form. -/
def codec : Codec Quadratic :=
  (Base.codec.pair Base.codec).imap (fun (c0, c1) => ⟨c0, c1⟩) fun a => (a.c0, a.c1)

end Quadratic

/-! ## Degree 6 -/

/-- The element `c0 + c1 · v + c2 · v²`. -/
structure Sextic where
  /-- The part without `v`. -/
  c0 : Quadratic
  /-- The coefficient of `v`. -/
  c1 : Quadratic
  /-- The coefficient of `v²`. -/
  c2 : Quadratic
  deriving DecidableEq

namespace Sextic

instance : Zero Sextic := ⟨⟨0, 0, 0⟩⟩

instance : One Sextic := ⟨⟨1, 0, 0⟩⟩

instance : Add Sextic := ⟨fun a b => ⟨a.c0 + b.c0, a.c1 + b.c1, a.c2 + b.c2⟩⟩

instance : Sub Sextic := ⟨fun a b => ⟨a.c0 - b.c0, a.c1 - b.c1, a.c2 - b.c2⟩⟩

instance : Neg Sextic := ⟨fun a => ⟨-a.c0, -a.c1, -a.c2⟩⟩

/-- The product. Each coefficient is summed up before it is reduced. -/
def mul (a b : Sextic) : Sextic :=
  { c0 := (a.c0.wide b.c0 + (a.c1.wide b.c2 + a.c2.wide b.c1).mulResidue).reduce
    c1 := (a.c0.wide b.c1 + a.c1.wide b.c0 + (a.c2.wide b.c2).mulResidue).reduce
    c2 := (a.c0.wide b.c2 + a.c1.wide b.c1 + a.c2.wide b.c0).reduce }

instance : Mul Sextic := ⟨mul⟩

/-- The product with `v`. -/
def mulV (a : Sextic) : Sextic :=
  ⟨a.c2.mulResidue, a.c0, a.c1⟩

/-- The inverse; 0 for 0. -/
def inverse (a : Sextic) : Sextic :=
  let t0 := a.c0 * a.c0 - (a.c1 * a.c2).mulResidue
  let t1 := (a.c2 * a.c2).mulResidue - a.c0 * a.c1
  let t2 := a.c1 * a.c1 - a.c0 * a.c2
  let norm := a.c0 * t0 + (a.c2 * t1 + a.c1 * t2).mulResidue
  let k := norm.inverse
  ⟨t0 * k, t1 * k, t2 * k⟩

/-- The byte form. -/
def codec : Codec Sextic :=
  (Quadratic.codec.pair (Quadratic.codec.pair Quadratic.codec)).imap
    (fun (c0, c1, c2) => ⟨c0, c1, c2⟩) fun a => (a.c0, a.c1, a.c2)

end Sextic

/-! ## Degree 12 -/

/-- The element `c0 + c1 · w`. -/
structure Dodecic where
  /-- The part without `w`. -/
  c0 : Sextic
  /-- The coefficient of `w`. -/
  c1 : Sextic
  deriving DecidableEq

namespace Dodecic

instance : Zero Dodecic := ⟨⟨0, 0⟩⟩

instance : One Dodecic := ⟨⟨1, 0⟩⟩

/-- The product, from three products of coefficients. -/
def mul (a b : Dodecic) : Dodecic :=
  let t0 := a.c0 * b.c0
  let t1 := a.c1 * b.c1
  { c0 := t0 + t1.mulV
    c1 := (a.c0 + a.c1) * (b.c0 + b.c1) - t0 - t1 }

instance : Mul Dodecic := ⟨mul⟩

/-- The image under `w ↦ -w`, which is also the power with `fieldOrder ^ 6`. -/
def conjugate (a : Dodecic) : Dodecic :=
  ⟨a.c0, -a.c1⟩

/-- The inverse; 0 for 0. -/
def inverse (a : Dodecic) : Dodecic :=
  let k := (a.c0 * a.c0 - (a.c1 * a.c1).mulV).inverse
  ⟨a.c0 * k, -(a.c1 * k)⟩

/-- The inverse, which 0 does not have. -/
def inverse? (a : Dodecic) : Option Dodecic :=
  if a = 0 then none else some a.inverse

/-- The power `(9 + u) ^ (n · (fieldOrder - 1) / 6)`, by which the field automorphism
turns `w ^ n`. -/
def twistPower (n : Nat) : Quadratic :=
  power (· * ·) 1 Quadratic.residue (n * ((fieldOrder - 1) / 6))

/-- The factor for `w`. -/
def twist1 : Quadratic := twistPower 1

/-- The factor for `w²`. -/
def twist2 : Quadratic := twistPower 2

/-- The factor for `w³`. -/
def twist3 : Quadratic := twistPower 3

/-- The factor for `w⁴`. -/
def twist4 : Quadratic := twistPower 4

/-- The factor for `w⁵`. -/
def twist5 : Quadratic := twistPower 5

/-- The power with the field order. -/
def frobenius (a : Dodecic) : Dodecic :=
  { c0 :=
      { c0 := a.c0.c0.conjugate
        c1 := a.c0.c1.conjugate * twist2
        c2 := a.c0.c2.conjugate * twist4 }
    c1 :=
      { c0 := a.c1.c0.conjugate * twist1
        c1 := a.c1.c1.conjugate * twist3
        c2 := a.c1.c2.conjugate * twist5 } }

/-- The byte form. -/
def codec : Codec Dodecic :=
  (Sextic.codec.pair Sextic.codec).imap (fun (c0, c1) => ⟨c0, c1⟩) fun a => (a.c0, a.c1)

end Dodecic

end AttributeEncryption
