/-!
# UTF-8

Characters to bytes and back. `pieces` cuts any byte string into characters and
faults: a fault is a longest run of bytes that could have started a character, or
one byte that cannot start any. `decode` reads a string that has no faults and
otherwise names the first one; `decodeLossy` puts U+FFFD in the place of each.
-/

namespace AttributeEncryption.Utf8

/-- The bytes of one character. -/
def encodeChar (c : Char) : List UInt8 :=
  let n := c.toNat
  if n < 0x80 then [.ofNat n]
  else if n < 0x800 then [.ofNat (0xC0 + n / 0x40), .ofNat (0x80 + n % 0x40)]
  else if n < 0x10000 then
    [.ofNat (0xE0 + n / 0x1000), .ofNat (0x80 + n / 0x40 % 0x40), .ofNat (0x80 + n % 0x40)]
  else
    [.ofNat (0xF0 + n / 0x40000), .ofNat (0x80 + n / 0x1000 % 0x40),
      .ofNat (0x80 + n / 0x40 % 0x40), .ofNat (0x80 + n % 0x40)]

/-- The bytes of a string. -/
def encode (s : String) : List UInt8 :=
  s.toList.flatMap encodeChar

/-! ## Cutting bytes into pieces -/

/-- A piece of a byte string. -/
inductive Piece where
  /-- A whole character. -/
  | char (c : Char)
  /-- Bytes that the byte after them, or their own value, keeps from being a character. -/
  | broken (width : Nat)
  /-- Bytes that start a character which the end of the input cuts off. -/
  | cutOff (width : Nat)
  deriving DecidableEq

/-- A character that has been started: its value so far, how many bytes were read and
how many are missing, and the range of the next one. -/
structure Pending where
  /-- The value of the bits read so far. -/
  value : Nat
  /-- How many bytes were read. -/
  width : Nat
  /-- How many bytes are missing after the next one. -/
  further : Nat
  /-- The least byte that may come next. -/
  low : Nat
  /-- The greatest byte that may come next. -/
  high : Nat
  deriving DecidableEq

/-- The character that a byte from 0x80 on starts, if it can start one. The range of
the second byte leaves out overlong forms, surrogates and values above U+10FFFF. -/
def lead? (b : Nat) : Option Pending :=
  if 0xC2 ≤ b ∧ b ≤ 0xDF then some ⟨b - 0xC0, 1, 0, 0x80, 0xBF⟩
  else if b = 0xE0 then some ⟨0, 1, 1, 0xA0, 0xBF⟩
  else if b = 0xED then some ⟨0x0D, 1, 1, 0x80, 0x9F⟩
  else if 0xE1 ≤ b ∧ b ≤ 0xEF then some ⟨b - 0xE0, 1, 1, 0x80, 0xBF⟩
  else if b = 0xF0 then some ⟨0, 1, 2, 0x90, 0xBF⟩
  else if b = 0xF4 then some ⟨4, 1, 2, 0x80, 0x8F⟩
  else if 0xF1 ≤ b ∧ b ≤ 0xF3 then some ⟨b - 0xF0, 1, 2, 0x80, 0xBF⟩
  else none

/-- Reads a byte where a character starts. -/
def start (b : Nat) : List Piece × Option Pending :=
  if b < 0x80 then ([.char (Char.ofNat b)], none)
  else
    match lead? b with
    | some p => ([], some p)
    | none => ([.broken 1], none)

/-- Reads a byte inside the character `p`, or starts anew if it does not fit. -/
def resume (p : Pending) (b : Nat) : List Piece × Option Pending :=
  if p.low ≤ b ∧ b ≤ p.high then
    let value := p.value * 0x40 + (b - 0x80)
    match p.further with
    | 0 => ([.char (Char.ofNat value)], none)
    | n + 1 => ([], some ⟨value, p.width + 1, n, 0x80, 0xBF⟩)
  else
    let (out, next) := start b
    (.broken p.width :: out, next)

/-- The pieces of `bytes` after the start of a character, if there is one. -/
def piecesFrom : Option Pending → List UInt8 → List Piece
  | none, [] => []
  | some p, [] => [.cutOff p.width]
  | none, b :: bytes =>
    let (out, next) := start b.toNat
    out ++ piecesFrom next bytes
  | some p, b :: bytes =>
    let (out, next) := resume p b.toNat
    out ++ piecesFrom next bytes

/-- The pieces of a byte string, in order. -/
def pieces (bytes : List UInt8) : List Piece :=
  piecesFrom none bytes

/-! ## Decoding -/

/-- The first fault of a byte string. -/
structure Fault where
  /-- How many bytes before it are whole characters. -/
  index : Nat
  /-- Its length, or nothing if the input ends inside it. -/
  width : Option Nat
  deriving DecidableEq

/-- The wording of a fault. -/
def Fault.message : Fault → String
  | ⟨index, some width⟩ => s!"invalid utf-8 sequence of {width} bytes from index {index}"
  | ⟨index, none⟩ => s!"incomplete utf-8 byte sequence from index {index}"

/-- The characters of a list of pieces, the first of which starts at `index`. -/
def charsFrom (index : Nat) : List Piece → Except Fault (List Char)
  | [] => .ok []
  | .broken width :: _ => .error ⟨index, some width⟩
  | .cutOff _ :: _ => .error ⟨index, none⟩
  | .char c :: rest => (charsFrom (index + (encodeChar c).length) rest).map (c :: ·)

/-- The string that `bytes` encode, or the first fault in them. -/
def decode (bytes : List UInt8) : Except Fault String :=
  (charsFrom 0 (pieces bytes)).map String.ofList

/-- What a reader is shown for a piece: a fault as U+FFFD. -/
def Piece.shown : Piece → Char
  | .char c => c
  | .broken _ => '\uFFFD'
  | .cutOff _ => '\uFFFD'

/-- The string that `bytes` encode, with U+FFFD in the place of each fault. -/
def decodeLossy (bytes : List UInt8) : String :=
  String.ofList ((pieces bytes).map Piece.shown)

end AttributeEncryption.Utf8
