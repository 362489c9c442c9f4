import AttributeEncryption.Algebra.Codec

/-!
# Points in Jacobian coordinates

The triple `(x, y, z)` with `z ≠ 0` stands for the affine point `(x / z², y / z³)` of a
curve `y² = x³ + b`, and every triple with `z = 0` for the neutral element. A point has
many triples: `same` compares points, the byte form keeps triples as they are.
-/

namespace AttributeEncryption

/-- What the formulas need of the field of the coordinates. -/
class CurveField (F : Type) extends Zero F, One F, Add F, Sub F, Mul F, Neg F where
  /-- The inverse of an element other than 0. -/
  inverse : F → F

/-- A point in Jacobian coordinates. -/
structure Jacobian (F : Type) where
  /-- The affine coordinate `x` times `z²`. -/
  x : F
  /-- The affine coordinate `y` times `z³`. -/
  y : F
  /-- The common factor, 0 for the neutral element. -/
  z : F

namespace Jacobian

variable {F : Type} [CurveField F] [DecidableEq F]

/-- The neutral element. -/
def zero : Jacobian F :=
  ⟨0, 1, 0⟩

/-- The point with affine coordinates `x` and `y`. -/
def ofAffine (x y : F) : Jacobian F :=
  ⟨x, y, 1⟩

/-- Whether a triple stands for the neutral element. -/
def isZero (p : Jacobian F) : Bool :=
  p.z = 0

/-- The inverse point. -/
def neg (p : Jacobian F) : Jacobian F :=
  { p with y := -p.y }

/-- Twice a point. -/
def double (p : Jacobian F) : Jacobian F :=
  let a := p.x * p.x
  let b := p.y * p.y
  let c := b * b
  let d := p.x * b
  let d := d + d
  let d := d + d
  let e := a + a + a
  let x := e * e - (d + d)
  let c := c + c
  let c := c + c
  let c := c + c
  let z := p.y * p.z
  { x, y := e * (d - x) - c, z := z + z }

/-- The sum of two points. -/
def add (p q : Jacobian F) : Jacobian F :=
  if p.isZero then q
  else if q.isZero then p
  else
    let pz2 := p.z * p.z
    let qz2 := q.z * q.z
    let u := p.x * qz2
    let s := p.y * (q.z * qz2)
    let h := q.x * pz2 - u
    let r := q.y * (p.z * pz2) - s
    if h = 0 then
      if r = 0 then double p else zero
    else
      let h2 := h * h
      let h3 := h * h2
      let v := u * h2
      let x := r * r - h3 - (v + v)
      { x, y := r * (v - x) - s * h3, z := p.z * q.z * h }

/-- Whether two triples stand for one point. -/
def same (p q : Jacobian F) : Bool :=
  if p.isZero || q.isZero then p.isZero && q.isZero
  else
    let pz2 := p.z * p.z
    let qz2 := q.z * q.z
    decide (p.x * qz2 = q.x * pz2) && decide (p.y * (qz2 * q.z) = q.y * (pz2 * p.z))

/-- The triple of a point whose last coordinate is 1, or nothing for the neutral
element. -/
def affine? (p : Jacobian F) : Option (Jacobian F) :=
  if p.isZero then none
  else
    let k := CurveField.inverse p.z
    let k2 := k * k
    some (ofAffine (p.x * k2) (p.y * (k2 * k)))

/-- The byte form: the three coordinates. -/
def codec (coordinate : Codec F) : Codec (Jacobian F) :=
  (coordinate.pair (coordinate.pair coordinate)).imap (fun (x, y, z) => ⟨x, y, z⟩)
    fun p => (p.x, p.y, p.z)

end Jacobian

end AttributeEncryption
