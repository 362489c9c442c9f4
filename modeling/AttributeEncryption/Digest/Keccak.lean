import AttributeEncryption.Bytes

/-!
# SHA-3 and SHAKE

The permutation on 25 lanes of 64 bits, the sponge built on it, and the two functions
that the scheme uses: a 256-bit key and a keystream of any length, both of a secret
under a domain. The lane with coordinates `x` and `y` has the index `x + 5y`.
-/

namespace AttributeEncryption

namespace Keccak

/-- The state of the permutation. -/
abbrev State := Vector UInt64 25

/-- The lane with the given coordinates, both modulo 5. -/
def lane (s : State) (x y : Nat) : UInt64 :=
  s[x % 5 + 5 * (y % 5)]

/-- The state whose lanes are given by their coordinates. -/
def ofLanes (f : Nat → Nat → UInt64) : State :=
  Vector.ofFn fun i => f (i.val % 5) (i.val / 5)

/-- A lane turned to the left. -/
def rotate (a : UInt64) (n : Nat) : UInt64 :=
  let n := n.toUInt64
  (a <<< n) ||| (a >>> (64 - n))

/-! ## The permutation -/

/-- How far each lane is turned, by index. -/
def rotations : Vector Nat 25 :=
  #v[0, 1, 62, 28, 27, 36, 44, 6, 55, 20, 3, 10, 43, 25, 39, 41, 45, 15, 21, 8, 18, 2, 61, 56,
    14]

/-- The constants that the rounds add. -/
def roundConstants : List UInt64 :=
  [0x0000000000000001, 0x0000000000008082, 0x800000000000808A, 0x8000000080008000,
    0x000000000000808B, 0x0000000080000001, 0x8000000080008081, 0x8000000000008009,
    0x000000000000008A, 0x0000000000000088, 0x0000000080008009, 0x000000008000000A,
    0x000000008000808B, 0x800000000000008B, 0x8000000000008089, 0x8000000000008003,
    0x8000000000008002, 0x8000000000000080, 0x000000000000800A, 0x800000008000000A,
    0x8000000080008081, 0x8000000000008080, 0x0000000080000001, 0x8000000080008008]

/-- Adds to every lane the sums of two neighbouring columns. -/
def mixColumns (s : State) : State :=
  let sums : Vector UInt64 5 := Vector.ofFn fun x =>
    lane s x 0 ^^^ lane s x 1 ^^^ lane s x 2 ^^^ lane s x 3 ^^^ lane s x 4
  ofLanes fun x y => lane s x y ^^^ sums[(x + 4) % 5] ^^^ rotate sums[(x + 1) % 5] 1

/-- Turns every lane and moves it to its new place. -/
def turnAndMove (s : State) : State :=
  ofLanes fun x y =>
    rotate (lane s (x + 3 * y) x) rotations[(x + 3 * y) % 5 + 5 * (x % 5)]

/-- Adds to every lane a product of the next two in its row. -/
def mixRows (s : State) : State :=
  ofLanes fun x y => lane s x y ^^^ (~~~(lane s (x + 1) y) &&& lane s (x + 2) y)

/-- One round. -/
def round (s : State) (constant : UInt64) : State :=
  let s := mixRows (turnAndMove (mixColumns s))
  s.set 0 (s[0] ^^^ constant)

/-- The permutation. -/
def permute (s : State) : State :=
  roundConstants.foldl round s

/-! ## The sponge -/

/-- The eight bytes of a lane. -/
def laneBytes (a : UInt64) : List UInt8 :=
  littleEndian 8 a.toNat

/-- The bytes of a state. -/
def bytes (s : State) : List UInt8 :=
  s.toList.flatMap laneBytes

/-- Adds a block to the first lanes. -/
def addBlock (s : State) (block : List UInt8) : State :=
  Vector.ofFn fun i =>
    s[i] ^^^ .ofNat (ofLittleEndian ((block.drop (8 * i.val)).take 8))

/-- The bytes that fill up a message of the given length to a multiple of `rate`. -/
def padding (rate : Nat) (suffix : UInt8) (length : Nat) : List UInt8 :=
  match rate - length % rate with
  | 0 => []
  | 1 => [suffix ||| 0x80]
  | n + 2 => suffix :: List.replicate n 0 ++ [0x80]

/-- The state after a message. -/
def absorb (rate : Nat) (suffix : UInt8) (message : List UInt8) : State :=
  let padded := message ++ padding rate suffix message.length
  (chunks rate (padded.length / rate) padded).foldl (fun s block => permute (addBlock s block))
    (Vector.replicate 25 0)

/-- The first bytes of the given number of states in a row. -/
def squeeze (rate : Nat) : Nat → State → List UInt8
  | 0, _ => []
  | blocks + 1, s => (bytes s).take rate ++ squeeze rate blocks (permute s)

/-- The first `length` bytes that the sponge gives for a message. -/
def sponge (rate : Nat) (suffix : UInt8) (message : List UInt8) (length : Nat) : List UInt8 :=
  (squeeze rate ((length + rate - 1) / rate) (absorb rate suffix message)).take length

/-! ## Keys and keystreams -/

/-- The 256-bit SHA-3 digest of a domain followed by a secret. -/
def key (domain secret : List UInt8) : List UInt8 :=
  sponge 136 0x06 (domain ++ secret) 32

/-- The first `length` bytes of SHAKE256 of a domain followed by a secret. -/
def keystream (domain secret : List UInt8) (length : Nat) : List UInt8 :=
  sponge 136 0x1F (domain ++ secret) length

/-! ## Lengths -/

theorem length_bytes (s : State) : (bytes s).length = 200 := by
  have h (lanes : List UInt64) : (lanes.flatMap laneBytes).length = 8 * lanes.length := by
    induction lanes with
    | nil => rfl
    | cons a rest ih =>
      simp only [List.flatMap_cons, List.length_append, ih, laneBytes, length_littleEndian,
        List.length_cons]
      omega
  simp [bytes, h]

theorem length_squeeze {rate : Nat} (h : rate ≤ 200) (blocks : Nat) (s : State) :
    (squeeze rate blocks s).length = rate * blocks := by
  induction blocks generalizing s with
  | zero => rfl
  | succ blocks ih =>
    simp only [squeeze, List.length_append, List.length_take, length_bytes, ih,
      Nat.min_eq_left h, Nat.mul_add, Nat.mul_one]
    omega

@[simp]
theorem length_keystream (domain secret : List UInt8) (length : Nat) :
    (keystream domain secret length).length = length := by
  simp only [keystream, sponge, List.length_take, length_squeeze (by decide : 136 ≤ 200)]
  omega

end Keccak

end AttributeEncryption
