/-!
# Numbers as bytes

Numbers of a fixed count of bytes in both byte orders, and lists cut into pieces of one
size.
-/

namespace AttributeEncryption

/-- The bytes of a number below `256 ^ count`, the least significant one first. -/
def littleEndian : Nat → Nat → List UInt8
  | 0, _ => []
  | count + 1, n => .ofNat n :: littleEndian count (n / 256)

/-- The bytes of a number below `256 ^ count`, the most significant one first. -/
def bigEndian (count n : Nat) : List UInt8 :=
  (littleEndian count n).reverse

/-- The number that some bytes stand for, the least significant one first. -/
def ofLittleEndian (bytes : List UInt8) : Nat :=
  bytes.foldr (fun b n => b.toNat + 256 * n) 0

/-- The number that some bytes stand for, the most significant one first. -/
def ofBigEndian (bytes : List UInt8) : Nat :=
  bytes.foldl (fun n b => 256 * n + b.toNat) 0

/-- The first `count` pieces of `size` items of a list. -/
def chunks {α : Type} (size : Nat) : Nat → List α → List (List α)
  | 0, _ => []
  | count + 1, items => items.take size :: chunks size count (items.drop size)

@[simp]
theorem length_littleEndian (count n : Nat) : (littleEndian count n).length = count := by
  induction count generalizing n with
  | zero => rfl
  | succ count ih => simp [littleEndian, ih]

@[simp]
theorem length_bigEndian (count n : Nat) : (bigEndian count n).length = count := by
  simp [bigEndian]

end AttributeEncryption
