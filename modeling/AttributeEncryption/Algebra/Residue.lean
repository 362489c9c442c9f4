import AttributeEncryption.Algebra.Codec
import AttributeEncryption.Algebra.Power
import AttributeEncryption.Bytes

/-!
# Residues modulo a prime

The base field and the scalar field of the curve are residues modulo the primes
`fieldOrder` and `groupOrder`. The byte form of a residue `x` is the little-endian
integer `x · 2^256` modulo the prime.
-/

namespace AttributeEncryption

/-- The order of the base field. -/
def fieldOrder : Nat :=
  21888242871839275222246405745257275088696311157297823662689037894645226208583

/-- The order of the groups, and so of the scalar field. -/
def groupOrder : Nat :=
  21888242871839275222246405745257275088548364400416034343698204186575808495617

instance : @NeZero Nat Zero.ofOfNat0 fieldOrder :=
  ⟨by decide⟩

instance : @NeZero Nat Zero.ofOfNat0 groupOrder :=
  ⟨by decide⟩

/-- An element of the base field. -/
abbrev Base := Fin fieldOrder

/-- An element of the scalar field. -/
abbrev Scalar := Fin groupOrder

namespace Residue

variable {p : Nat}

/-- The residue of a number. -/
def ofNat (hp : 0 < p) (n : Nat) : Fin p :=
  ⟨n % p, Nat.mod_lt n hp⟩

/-- The inverse of a residue other than 0 if `p` is prime; 0 for 0. -/
def inverse (x : Fin p) : Fin p :=
  power (· * ·) (ofNat x.pos 1) x (p - 2)

/-- The factor that the byte form carries: the residue of `2^256`. -/
def radix (hp : 0 < p) : Fin p :=
  ofNat hp (1 <<< 256)

/-- The byte form. It is read with the inverse of the factor. -/
def codec (hp : 0 < p) (radixInverse : Fin p) : Codec (Fin p) where
  width := 32
  encode x := littleEndian 32 (x * radix hp).val
  decode bytes := ofNat hp (ofLittleEndian bytes) * radixInverse

end Residue

namespace Base

/-- The field is not empty. -/
theorem order_pos : 0 < fieldOrder := by
  decide

/-- The inverse of `2^256`. -/
def radixInverse : Base :=
  Residue.inverse (Residue.radix order_pos)

/-- The byte form of a base field element. -/
def codec : Codec Base :=
  Residue.codec order_pos radixInverse

end Base

namespace Scalar

/-- The field is not empty. -/
theorem order_pos : 0 < groupOrder := by
  decide

/-- The inverse of `2^256`. -/
def radixInverse : Scalar :=
  Residue.inverse (Residue.radix order_pos)

/-- The byte form of a scalar. -/
def codec : Codec Scalar :=
  Residue.codec order_pos radixInverse

/-- The scalar of a natural number. -/
def ofNat (n : Nat) : Scalar :=
  Residue.ofNat order_pos n

/-- The scalar of an integer: a negative one is the additive inverse of its magnitude. -/
def ofInt (n : Int) : Scalar :=
  if n < 0 then -ofNat n.natAbs else ofNat n.natAbs

/-- The multiplicative inverse, which 0 does not have. -/
def inverse? (x : Scalar) : Option Scalar :=
  if x = 0 then none else some (Residue.inverse x)

end Scalar

end AttributeEncryption
