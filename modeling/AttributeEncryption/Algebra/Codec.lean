import AttributeEncryption.Failure

/-!
# Byte forms of elements

A `Codec` writes the values of a type as byte strings of one fixed width. Reading checks
the width and nothing else.
-/

namespace AttributeEncryption

/-- A byte form of fixed width. -/
structure Codec (α : Type) where
  /-- The number of bytes of every value. -/
  width : Nat
  /-- The bytes of a value. -/
  encode : α → List UInt8
  /-- The value of `width` bytes. -/
  decode : List UInt8 → α

namespace Codec

variable {α β : Type}

/-- The value of a byte string, which has to have the right width. -/
def read (c : Codec α) (bytes : List UInt8) : Except Failure α :=
  if bytes.length < c.width then .error (.invalidData .elementTooShort)
  else if c.width < bytes.length then .error (.invalidData .elementTooLong)
  else .ok (c.decode bytes)

/-- Two values one after the other. -/
def pair (c : Codec α) (d : Codec β) : Codec (α × β) where
  width := c.width + d.width
  encode p := c.encode p.1 ++ d.encode p.2
  decode bytes := (c.decode (bytes.take c.width), d.decode (bytes.drop c.width))

/-- The byte form of a type that stands for another one. -/
def imap (c : Codec α) (into : α → β) (out : β → α) : Codec β where
  width := c.width
  encode b := c.encode (out b)
  decode bytes := into (c.decode bytes)

end Codec

end AttributeEncryption
