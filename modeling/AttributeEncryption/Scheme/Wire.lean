import AttributeEncryption.Scheme.Payload
import AttributeEncryption.Wire.Matrix

/-!
# Stored objects

The frames of parameters, keys, headers and ciphertexts. All but headers start with the
tag of the scheme. Keys and ciphertexts are read under parameters and checked against
them; bytes after an object are left alone.
-/

namespace AttributeEncryption

/-- The tag that stored objects start with. -/
def schemeTag : List UInt8 := Utf8.encode "waters08"

variable {S : Suite}

/-! ## Public parameters -/

namespace PublicParameters

/-- The frames of a registered attribute. -/
def writeAttribute (entry : UInt32 × Attribute S.G1) : Written :=
  Frame.sequence
    [Frame.text entry.2.name, .ok (Frame.word entry.1), Frame.element S.g1.codec entry.2.point]

/-- The frames of public parameters; attributes follow by ascending id. -/
def write (pp : PublicParameters S) : Written :=
  Frame.sequence
    ([Frame.bytes schemeTag, .ok (Frame.word pp.level.bits), Frame.text pairingDescription,
      Frame.element S.g1.codec pp.g1, Frame.element S.g2.codec pp.g2,
      Frame.element S.g1.codec pp.g1a, Frame.element S.gt.codec pp.blinding,
      Frame.length pp.registry.size] ++ pp.registry.attributes.entries.map writeAttribute)

/-- Reads a registered attribute. -/
def readAttribute (S : Suite) : Reader (UInt32 × Attribute S.G1) := do
  let name ← Reader.text
  let id ← Reader.word
  let point ← Reader.element S.g1.codec
  return (id, ⟨name, point⟩)

/-- Reads the frames of public parameters: the parameters without attributes, and the stored
attributes in their order. -/
def readFrames (S : Suite) : Reader (PublicParameters S × List (UInt32 × Attribute S.G1)) := do
  Reader.tag schemeTag fun mismatch => .invalidPublicParameters (.tag mismatch)
  let bits ← Reader.word
  match SecurityLevel.ofBits? bits with
  | none => Reader.refuse (.invalidPublicParameters (.securityLevel bits))
  | some level =>
    let description ← Reader.text
    if description ≠ pairingDescription then
      Reader.refuse (.invalidPublicParameters (.pairing description))
    else
      let g1 ← Reader.element S.g1.codec
      let g2 ← Reader.element S.g2.codec
      let g1a ← Reader.element S.g1.codec
      let blinding ← Reader.element S.gt.codec
      let count ← Reader.length
      let attributes ← Reader.many (readAttribute S) count
      return ({ level, g1, g2, g1a, blinding, registry := .empty }, attributes)

/-- Reads public parameters; attributes may come in any order. -/
def read (S : Suite) : Reader (PublicParameters S) := do
  let (pp, attributes) ← readFrames S
  let registry ← Reader.check (Registry.empty.ofStored attributes)
  return { pp with registry }

end PublicParameters

/-! ## Keys -/

namespace MasterKey

/-- The frames of a master key. -/
def write (msk : MasterKey S) : Written :=
  Frame.sequence [Frame.bytes schemeTag, Frame.element S.g1.codec msk.point]

/-- Reads a master key that belongs to the parameters. -/
def read (pp : PublicParameters S) : Reader (MasterKey S) := do
  Reader.tag schemeTag fun mismatch => .invalidMasterKey (.tag mismatch)
  let point ← Reader.element S.g1.codec
  Reader.check (pp.checkMasterKey ⟨point⟩)
  return ⟨point⟩

end MasterKey

namespace PrivateKey

/-- The frames of a component. -/
def writeComponent (entry : UInt32 × S.G1) : Written :=
  Frame.sequence [.ok (Frame.word entry.1), Frame.element S.g1.codec entry.2]

/-- The frames of a private key; components follow by ascending id. -/
def write (sk : PrivateKey S) : Written :=
  Frame.sequence
    ([Frame.bytes schemeTag, Frame.element S.g1.codec sk.k, Frame.element S.g2.codec sk.l,
      Frame.length sk.components.size] ++ sk.components.entries.map writeComponent)

/-- Reads components in any order after those in `components`; none may come twice. -/
def readComponents (S : Suite) : Nat → IdMap S.G1 → Reader (IdMap S.G1)
  | 0, components => return components
  | count + 1, components => do
    let id ← Reader.word
    let component ← Reader.element S.g1.codec
    if components.contains id then Reader.refuse (.invalidPrivateKey (.idListedTwice id))
    else readComponents S count (components.insert id component)

/-- Reads a private key that was issued under the parameters. -/
def read (pp : PublicParameters S) : Reader (PrivateKey S) := do
  Reader.tag schemeTag fun mismatch => .invalidPrivateKey (.tag mismatch)
  let k ← Reader.element S.g1.codec
  let l ← Reader.element S.g2.codec
  let count ← Reader.length
  let components ← readComponents S count .empty
  let sk : PrivateKey S := { k, l, components }
  Reader.check (pp.checkPrivateKey sk)
  return sk

end PrivateKey

/-! ## Headers and ciphertexts -/

namespace Header

/-- The frames of the pair of a row. -/
def writePair (pair : S.G1 × S.G2) : Written :=
  Frame.sequence [Frame.element S.g1.codec pair.1, Frame.element S.g2.codec pair.2]

/-- The frames of a header. -/
def write (h : Header S) : Written :=
  Frame.sequence
    ([h.matrix.write, Frame.element S.g2.codec h.base, Frame.length h.pairs.length] ++
      h.pairs.map writePair)

/-- Reads the pair of a row. -/
def readPair (S : Suite) : Reader (S.G1 × S.G2) := do
  let c ← Reader.element S.g1.codec
  let d ← Reader.element S.g2.codec
  return (c, d)

/-- Reads a header that has a pair for every row. -/
def read (S : Suite) : Reader (Header S) := do
  let matrix ← ShareMatrix.read
  let base ← Reader.element S.g2.codec
  let count ← Reader.length
  if count ≠ matrix.rowCount then
    Reader.refuse (.invalidCiphertext (.componentCount count matrix.rowCount))
  else
    let pairs ← Reader.many (readPair S) count
    return { matrix, base, pairs }

end Header

namespace Ciphertext

/-- The frames of a ciphertext. -/
def write (ct : Ciphertext S) : Written :=
  Frame.sequence [Frame.bytes schemeTag, ct.header.write, Frame.bytes ct.content]

/-- Reads a ciphertext whose policy speaks of registered attributes. -/
def read (pp : PublicParameters S) : Reader (Ciphertext S) := do
  Reader.tag schemeTag fun mismatch => .invalidCiphertext (.tag mismatch)
  let header ← Header.read S
  Reader.check (pp.checkHeader header)
  let content ← Reader.bytes
  return ⟨header, content⟩

end Ciphertext

end AttributeEncryption
