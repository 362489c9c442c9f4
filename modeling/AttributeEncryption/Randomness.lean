import AttributeEncryption.Algebra.Residue

/-!
# Randomness

A stream of random 64-bit words with a position in it. Whatever draws from it hands the
advanced stream on, so that a run can be repeated and shows what it used.
-/

namespace AttributeEncryption

/-- A stream of random words. -/
structure Randomness where
  /-- The words. -/
  word : Nat → UInt64
  /-- How many of them were drawn. -/
  drawn : Nat

/-- A computation that draws random words. -/
abbrev Draw := StateM Randomness

/-- A computation that draws random words and may fail. What it drew until then stays
drawn. -/
abbrev Trial := ExceptT Failure Draw

namespace Randomness

/-! ## Streams -/

/-- The stream that mixes the multiples of an odd constant, counted from a seed. -/
def ofSeed (seed : UInt64) : Randomness where
  word i :=
    let z := seed + (i.toUInt64 + 1) * 0x9E3779B97F4A7C15
    let z := (z ^^^ (z >>> 30)) * 0xBF58476D1CE4E5B9
    let z := (z ^^^ (z >>> 27)) * 0x94D049BB133111EB
    z ^^^ (z >>> 31)
  drawn := 0

/-- The stream that repeats some words without end. -/
def ofWords (words : Array UInt64) : Randomness where
  word i := words.getD (i % words.size) 0
  drawn := 0

/-! ## Drawing -/

/-- Draws the next word. -/
def next : Draw UInt64 :=
  fun r => (r.word r.drawn, { r with drawn := r.drawn + 1 })

/-- Draws a number of words. -/
def words : Nat → Draw (List UInt64)
  | 0 => pure []
  | count + 1 => do
    let first ← next
    let rest ← words count
    return first :: rest

/-- Draws a number of bytes. A word gives eight of them, the least significant one first;
what the last word gives too much is dropped. -/
def bytes (count : Nat) : Draw (List UInt8) := do
  let words ← words ((count + 7) / 8)
  return (words.flatMap fun w => littleEndian 8 w.toNat).take count

/-- Draws a scalar: a number of 64 bytes modulo the group order. Every byte is the lowest
one of a word of its own, and the most significant byte comes first. -/
def scalar : Draw Scalar := do
  let words ← words 64
  return Scalar.ofNat (ofBigEndian (words.map fun w => w.toUInt8))

/-- Draws the scalar by which a generator is multiplied to a random point: a number of
eight words, the least significant one first, divided by `2^256`. -/
def pointScalar : Draw Scalar := do
  let words ← words 8
  let n := ofLittleEndian (words.flatMap fun w => littleEndian 8 w.toNat)
  return Scalar.ofNat n * Scalar.radixInverse

/-- Draws a number of scalars. -/
def scalars : Nat → Draw (List Scalar)
  | 0 => pure []
  | count + 1 => do
    let first ← scalar
    let rest ← scalars count
    return first :: rest

end Randomness

end AttributeEncryption
