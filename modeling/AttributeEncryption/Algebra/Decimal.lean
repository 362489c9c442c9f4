import AttributeEncryption.Algebra.Residue

/-!
# Scalars by way of decimal texts

Numbers of 64 bits are made scalars by writing them as decimal texts and reading the texts as
scalars. What reads texts is a parameter : it gives the scalar of a text, or nothing if the text
stands for none.
-/

namespace AttributeEncryption.Scalar

variable (read : String → Option Scalar)

/-- The scalar of a 64-bit number. -/
def ofUnsigned (n : UInt64) : Except Failure Scalar :=
  match read (toString n) with
  | some k => .ok k
  | none => .error (.invalidField (.notElement n))

/-- The scalar of a signed 64-bit number : only its magnitude is written. -/
def ofSigned (n : Int64) : Except Failure Scalar := do
  let magnitude ← ofUnsigned read (.ofNat n.toInt.natAbs)
  return if n < 0 then -magnitude else magnitude

/-- The scalar of a text of decimal digits, evaluated digit by digit. -/
def ofDecimal? (text : String) : Option Scalar :=
  text.toList.foldlM (fun k c =>
    if c.isDigit then some (ofNat 10 * k + ofNat (c.toNat - '0'.toNat)) else none) 0

end AttributeEncryption.Scalar
