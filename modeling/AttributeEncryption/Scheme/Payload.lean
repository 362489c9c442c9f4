import AttributeEncryption.Cipher.Gcm
import AttributeEncryption.Digest.Keccak
import AttributeEncryption.Scheme.Header

/-!
# Payloads

Two ways to protect data by the multiplier of a header. `encrypt` adds a keystream made
from it, so a key that does not satisfy the policy decrypts to other bytes; `wrap` uses
authenticated encryption under a key made from it, so that such a key fails.
-/

namespace AttributeEncryption

/-- The domain of the keystream. -/
def maskDomain : List UInt8 := Utf8.encode "waters08/payload-mask"

/-- The domain of the authenticated encryption. -/
def wrapDomain : List UInt8 := Utf8.encode "waters08/aes-256-gcm"

/-- A ciphertext: a header and the data that its multiplier protects. -/
structure Ciphertext (S : Suite) where
  /-- The header. -/
  header : Header S
  /-- The protected data. -/
  content : List UInt8

variable {S : Suite}

/-- Whether two ciphertexts have the same header and content. -/
def Ciphertext.same (ct ct' : Ciphertext S) : Bool :=
  ct.header.same ct'.header && ct.content == ct'.content

/-! ## Protection by a value -/

namespace Suite

variable (S : Suite)

/-- Data with the keystream of a value added to it. -/
def mask (multiplier : S.Gt) (data : List UInt8) : List UInt8 :=
  List.zipWith (· ^^^ ·) data
    (Keccak.keystream maskDomain (S.gt.codec.encode multiplier) data.length)

/-- The key of the authenticated encryption. -/
def wrapKey (multiplier : S.Gt) : List UInt8 :=
  Keccak.key wrapDomain (S.gt.codec.encode multiplier)

/-- Data encrypted under the key of a value: a random nonce, the ciphertext, the tag. -/
def wrap (multiplier : S.Gt) (data : List UInt8) : Trial (List UInt8) := do
  let nonce ← Randomness.bytes Gcm.nonceLength
  let payload ← Gcm.encrypt (S.wrapKey multiplier) nonce data
  return nonce ++ payload

/-- The data that was wrapped. -/
def unwrap (multiplier : S.Gt) (payload : List UInt8) : Except Failure (List UInt8) :=
  if payload.length < Gcm.nonceLength + Gcm.tagLength then
    .error (.notDecrypted (.tooShort payload.length))
  else
    Gcm.decrypt (S.wrapKey multiplier) (payload.take Gcm.nonceLength)
      (payload.drop Gcm.nonceLength)

end Suite

/-! ## Protection by a policy -/

namespace PublicParameters

/-- Encrypts data under the policy of a matrix. -/
def encrypt (pp : PublicParameters S) (matrix : ShareMatrix) (data : List UInt8) :
    Trial (Ciphertext S) := do
  let (header, multiplier) ← pp.encapsulate matrix
  return ⟨header, S.mask multiplier data⟩

/-- Decrypts a ciphertext; a key that does not satisfy the policy gives other bytes. -/
def decrypt (pp : PublicParameters S) (ct : Ciphertext S) (sk : PrivateKey S) :
    Except Failure (List UInt8) := do
  let multiplier ← pp.recover ct.header sk
  return S.mask multiplier ct.content

/-- Wraps data under the policy of a matrix. -/
def wrap (pp : PublicParameters S) (matrix : ShareMatrix) (data : List UInt8) :
    Trial (Ciphertext S) := do
  let (header, multiplier) ← pp.encapsulate matrix
  let content ← S.wrap multiplier data
  return ⟨header, content⟩

/-- Unwraps a ciphertext; a key that does not satisfy the policy fails. -/
def unwrap (pp : PublicParameters S) (ct : Ciphertext S) (sk : PrivateKey S) :
    Except Failure (List UInt8) := do
  let multiplier ← pp.recover ct.header sk
  S.unwrap multiplier ct.content

end PublicParameters

end AttributeEncryption
