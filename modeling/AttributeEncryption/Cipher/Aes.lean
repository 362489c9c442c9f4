import AttributeEncryption.Algebra.Power
import AttributeEncryption.Bytes

/-!
# AES-256

The block cipher on blocks of 16 bytes. Bytes are elements of the field of 256 elements
given by `x⁸ + x⁴ + x³ + x + 1`; the substitution box inverts them and applies an affine
map. A block is filled column by column.
-/

namespace AttributeEncryption.Aes

/-! ## Bytes as field elements -/

/-- The product with `x`. -/
def double (a : UInt8) : UInt8 :=
  if a &&& 0x80 = 0 then a <<< 1 else (a <<< 1) ^^^ 0x1B

/-- The product of two bytes. -/
def mul (a b : UInt8) : UInt8 :=
  let step (state : UInt8 × UInt8) (i : Nat) : UInt8 × UInt8 :=
    let (sum, power) := state
    (if (b >>> i.toUInt8) &&& 1 = 1 then sum ^^^ power else sum, double power)
  ((List.range 8).foldl step (0, a)).1

/-- A byte turned to the left. -/
def rotate (a n : UInt8) : UInt8 :=
  (a <<< n) ||| (a >>> (8 - n))

/-- The substitution of a byte: its inverse, 0 for 0, through an affine map. -/
def substitution (a : UInt8) : UInt8 :=
  let b := power mul 1 a 254
  b ^^^ rotate b 1 ^^^ rotate b 2 ^^^ rotate b 3 ^^^ rotate b 4 ^^^ 0x63

/-- All substitutions. -/
def box : Vector UInt8 256 :=
  Vector.ofFn fun i => substitution (.ofNat i.val)

/-- The substitution of a byte, looked up. -/
def substitute (a : UInt8) : UInt8 :=
  box.get ⟨a.toNat, UInt8.toNat_lt a⟩

/-! ## The key schedule -/

/-- Four bytes of the key schedule. -/
abbrev Word := List UInt8

/-- The sum of two words. -/
def addWords (a b : Word) : Word :=
  List.zipWith (· ^^^ ·) a b

/-- Each word of the list added to the sum of all before it and `sum`. -/
def runningSums (sum : Word) : List Word → List Word
  | [] => []
  | w :: rest =>
    let sum := addWords w sum
    sum :: runningSums sum rest

/-- The eight words after the given eight. -/
def nextWords (constant : UInt8) (words : List Word) : List Word :=
  let last := words.getLastD []
  let turned := (last.drop 1 ++ last.take 1).map substitute
  let first := runningSums (addWords turned [constant, 0, 0, 0]) (words.take 4)
  let second := runningSums ((first.getLastD []).map substitute) (words.drop 4)
  first ++ second

/-- The given words and all after them, where each batch has a constant. -/
def expand (words : List Word) : List UInt8 → List Word
  | [] => words
  | constant :: rest => words ++ expand (nextWords constant words) rest

/-- The fifteen round keys of a key of 32 bytes. -/
def roundKeys (key : List UInt8) : List (List UInt8) :=
  let words := expand (chunks 4 8 key) [0x01, 0x02, 0x04, 0x08, 0x10, 0x20, 0x40]
  (chunks 4 15 words).map List.flatten

/-! ## Blocks -/

/-- Sixteen bytes. -/
abbrev Block := Vector UInt8 16

/-- The first sixteen bytes of a list, filled up with zeros. -/
def Block.ofList (bytes : List UInt8) : Block :=
  let bytes := bytes.toArray
  Vector.ofFn fun i => bytes.getD i.val 0

/-- The sum of two blocks. -/
def Block.add (a b : Block) : Block :=
  Vector.zipWith (· ^^^ ·) a b

/-- Row `r` of the block turned by `r` columns. -/
def shiftRows (b : Block) : Block :=
  Vector.ofFn fun i => b[(i.val + 4 * (i.val % 4)) % 16]

/-- Every column multiplied by a fixed matrix. -/
def mixColumns (b : Block) : Block :=
  Vector.ofFn fun i =>
    let cell (k : Nat) : UInt8 := b.get ⟨i.val / 4 * 4 + (i.val + k) % 4, by omega⟩
    double (cell 0) ^^^ (double (cell 1) ^^^ cell 1) ^^^ cell 2 ^^^ cell 3

/-- The rounds after the first key was added; the last one does not mix columns. -/
def rounds (b : Block) : List Block → Block
  | [] => b
  | [last] => (shiftRows (b.map substitute)).add last
  | key :: rest => rounds ((mixColumns (shiftRows (b.map substitute))).add key) rest

/-- A block under the given round keys. -/
def encipher (keys : List Block) (b : Block) : Block :=
  match keys with
  | [] => b
  | first :: rest => rounds (b.add first) rest

end AttributeEncryption.Aes
