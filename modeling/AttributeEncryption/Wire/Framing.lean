import AttributeEncryption.Algebra.Codec
import AttributeEncryption.Bytes

/-!
# Framing

The frames that every stored object is made of. Numbers are words of four bytes, the most
significant one first. A byte string is advertised: a word with its length stands before
it. Texts, tags and group elements are byte strings.

A writer gives the bytes of a value, or fails if a length does not fit a word. A `Reader`
takes a value off the front of its input and leaves the rest.
-/

namespace AttributeEncryption

/-- What a writer gives. -/
abbrev Written := Except Failure (List UInt8)

/-- A computation that takes a value off the front of some bytes. -/
abbrev Reader := StateT (List UInt8) (Except Failure)

/-! ## Writing -/

namespace Frame

/-- An unsigned number. -/
def word (n : UInt32) : List UInt8 :=
  bigEndian 4 n.toNat

/-- A signed number, in two's complement. -/
def signedWord (n : Int32) : List UInt8 :=
  word n.toUInt32

/-- A length, which has to fit a word. -/
def length (n : Nat) : Written :=
  if n < 0x100000000 then .ok (word (.ofNat n)) else .error (.stream (.lengthTooLarge n))

/-- A byte string after its length. -/
def bytes (data : List UInt8) : Written := do
  let head ← length data.length
  return head ++ data

/-- A text. -/
def text (s : String) : Written :=
  bytes (Utf8.encode s)

/-- An element in its byte form. -/
def element {α : Type} (c : Codec α) (a : α) : Written :=
  bytes (c.encode a)

/-- Frames one after the other. -/
def sequence : List Written → Written
  | [] => .ok []
  | first :: rest => do
    let head ← first
    let tail ← sequence rest
    return head ++ tail

end Frame

/-! ## Reading -/

namespace Reader

/-- Fails. -/
def refuse {α : Type} (cause : Failure) : Reader α :=
  fun _ => .error cause

/-- Goes on with a checked value. -/
def check {α : Type} (result : Except Failure α) : Reader α :=
  fun input => result.map (·, input)

/-- An unsigned number. -/
def word : Reader UInt32
  | a :: b :: c :: d :: rest => .ok (.ofNat (ofBigEndian [a, b, c, d]), rest)
  | _ => .error (.stream (.unexpectedEnd .fixedWidth))

/-- A signed number, in two's complement. -/
def signedWord : Reader Int32 := do
  let n ← word
  return n.toInt32

/-- A length. -/
def length : Reader Nat := do
  let n ← word
  return n.toNat

/-- A byte string after its length. -/
def bytes : Reader (List UInt8) := do
  let advertised ← length
  let input ← get
  let data := input.take advertised
  if data.length = advertised then
    set (input.drop advertised)
    return data
  else refuse (.stream (.unexpectedEnd (.advertised advertised data.length)))

/-- A text. -/
def text : Reader String := do
  let data ← bytes
  check ((Utf8.decode data).mapError fun fault => .invalidData (.notUtf8 fault))

/-- A tag, which has to be the expected one; `failure` says whose tag it is. -/
def tag (expected : List UInt8) (failure : TagMismatch → Failure) : Reader Unit := do
  let found ← bytes
  if found = expected then return () else refuse (failure { expected, found })

/-- An element in its byte form. -/
def element {α : Type} (c : Codec α) : Reader α := do
  let data ← bytes
  check (c.read data)

/-- A number of values one after the other. -/
def many {α : Type} (read : Reader α) : Nat → Reader (List α)
  | 0 => return []
  | count + 1 => do
    let first ← read
    let rest ← many read count
    return first :: rest

/-- The value at the front of some bytes, whatever follows it. -/
def ofBytes {α : Type} (read : Reader α) (bytes : List UInt8) : Except Failure α :=
  (read bytes).map (·.1)

end Reader

/-- Exactly the four bytes of a word. -/
def exactWord (bytes : List UInt8) : Except Failure (List UInt8) :=
  if bytes.length = 4 then .ok bytes else .error (.invalidData .wordWidth)

end AttributeEncryption
