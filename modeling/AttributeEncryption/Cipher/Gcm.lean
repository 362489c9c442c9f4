import AttributeEncryption.Cipher.Aes
import AttributeEncryption.Failure

/-!
# Authenticated encryption

AES-256 in counter mode with an authentication tag of 16 bytes behind the ciphertext, a
nonce of 12 bytes and no associated data. `decrypt_encrypt` says that a payload is
decrypted under the key and the nonce it was encrypted with.
-/

namespace AttributeEncryption.Gcm

/-! ## The keystream -/

/-- The block with the given counter, which has 32 bits. -/
def counterBlock (nonce : List UInt8) (counter : Nat) : Aes.Block :=
  .ofList (nonce ++ bigEndian 4 counter)

/-- The keystream for `length` bytes. The counter 1 is kept for the tag. -/
def keystream (keys : List Aes.Block) (nonce : List UInt8) (length : Nat) : List UInt8 :=
  let block (i : Nat) := (Aes.encipher keys (counterBlock nonce (i + 2))).toList
  ((List.range ((length + 15) / 16)).flatMap block).take length

/-- Data with a keystream added to it. -/
def addStream (data stream : List UInt8) : List UInt8 :=
  List.zipWith (· ^^^ ·) data stream

/-! ## The tag -/

/-- The block as an element of the field of `2 ^ 128` elements given by
`x¹²⁸ + x⁷ + x² + x + 1`; the highest bit is the constant coefficient. -/
def element (b : List UInt8) : BitVec 128 :=
  .ofNat 128 (ofBigEndian b)

/-- The product with `x`. -/
def double (a : BitVec 128) : BitVec 128 :=
  if a.getLsbD 0 then (a >>> 1) ^^^ (0xE1#128 <<< 120) else a >>> 1

/-- The product of two elements. -/
def mul (a b : BitVec 128) : BitVec 128 :=
  let step (state : BitVec 128 × BitVec 128) (i : Nat) : BitVec 128 × BitVec 128 :=
    let (sum, power) := state
    (if b.getMsbD i then sum ^^^ power else sum, double power)
  ((List.range 128).foldl step (0#128, a)).1

/-- The authentication tag of a ciphertext. -/
def tag (keys : List Aes.Block) (nonce ciphertext : List UInt8) : List UInt8 :=
  let h := element (Aes.encipher keys (.ofList [])).toList
  let length := ciphertext.length
  let blocks := (length + 15) / 16
  let padded := ciphertext ++ List.replicate (16 * blocks - length) 0
  let sum := (chunks 16 blocks padded).foldl (fun sum block => mul (sum ^^^ element block) h) 0#128
  let sum := mul (sum ^^^ .ofNat 128 (8 * length)) h
  addStream (bigEndian 16 sum.toNat) (Aes.encipher keys (counterBlock nonce 1)).toList

/-! ## Encryption and decryption -/

/-- The length of a nonce. -/
def nonceLength : Nat := 12

/-- The length of a tag. -/
def tagLength : Nat := 16

/-- The greatest length of a plaintext. -/
def greatestLength : Nat := 0x1000000000

/-- The blocks of the round keys of a key. -/
def schedule (key : List UInt8) : List Aes.Block :=
  (Aes.roundKeys key).map .ofList

/-- The ciphertext of a plaintext, followed by its tag. -/
def encrypt (key nonce plaintext : List UInt8) : Except Failure (List UInt8) :=
  if greatestLength < plaintext.length then .error (.notDecrypted .tooLong)
  else
    let keys := schedule key
    let ciphertext := addStream plaintext (keystream keys nonce plaintext.length)
    .ok (ciphertext ++ tag keys nonce ciphertext)

/-- The plaintext of a ciphertext with its tag, if the tag belongs to it. -/
def decrypt (key nonce payload : List UInt8) : Except Failure (List UInt8) :=
  let length := payload.length - tagLength
  let ciphertext := payload.take length
  let keys := schedule key
  if payload.length < tagLength || greatestLength + tagLength < length ||
      payload.drop length != tag keys nonce ciphertext then
    .error (.notDecrypted .authentication)
  else .ok (addStream ciphertext (keystream keys nonce length))

/-! ## Decrypting what was encrypted -/

@[simp]
theorem length_keystream (keys : List Aes.Block) (nonce : List UInt8) (length : Nat) :
    (keystream keys nonce length).length = length := by
  have h (block : Nat → Aes.Block) (l : List Nat) :
      (l.flatMap fun i => (block i).toList).length = 16 * l.length := by
    induction l with
    | nil => rfl
    | cons i rest ih =>
      simp only [List.flatMap_cons, List.length_append, ih, Vector.length_toList,
        List.length_cons]
      omega
  simp only [keystream, List.length_take, h, List.length_range]
  omega

@[simp]
theorem length_addStream {data stream : List UInt8} (h : stream.length = data.length) :
    (addStream data stream).length = data.length := by
  simp [addStream, h]

@[simp]
theorem length_tag (keys : List Aes.Block) (nonce ciphertext : List UInt8) :
    (tag keys nonce ciphertext).length = tagLength := by
  simp [tag, addStream, tagLength]

/-- Adding a stream twice changes nothing. -/
theorem addStream_addStream {data stream : List UInt8} (h : stream.length = data.length) :
    addStream (addStream data stream) stream = data := by
  induction data generalizing stream with
  | nil => simp [addStream]
  | cons b rest ih =>
    cases stream with
    | nil => simp at h
    | cons s stream =>
      have hlength : stream.length = rest.length := by simpa using h
      have hrest := ih hlength
      simp only [addStream, List.zipWith_cons_cons] at hrest ⊢
      rw [hrest, UInt8.xor_assoc, UInt8.xor_self, UInt8.xor_zero]

/-- A payload is decrypted under the key and the nonce it was encrypted with. -/
theorem decrypt_encrypt {key nonce plaintext payload : List UInt8}
    (h : encrypt key nonce plaintext = .ok payload) :
    decrypt key nonce payload = .ok plaintext := by
  unfold encrypt at h
  split at h
  · cases h
  · next hlength =>
    cases h
    have hkeystream := length_keystream (schedule key) nonce plaintext.length
    have hciphertext := length_addStream hkeystream
    simp only [decrypt, List.length_append, hciphertext, length_tag, Nat.add_sub_cancel]
    rw [List.take_left' hciphertext, List.drop_left' hciphertext,
      addStream_addStream hkeystream]
    rw [if_neg]
    simp only [bne_self_eq_false, Bool.or_false, Bool.or_eq_true, decide_eq_true_eq]
    omega

end AttributeEncryption.Gcm
