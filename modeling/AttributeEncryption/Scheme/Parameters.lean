import AttributeEncryption.Scheme.Registry
import AttributeEncryption.Sharing.Compile

/-!
# Public parameters and the master key

`setup` draws the secrets `α` and `a`, publishes `g₁`, `g₂`, `g₁^a` and `e(g₁, g₂)^α`
and keeps `g₁^α` as the master key. Attributes are registered with the parameters, and
policies over them are compiled to matrices.
-/

namespace AttributeEncryption

/-- The greatest security level: the bit length of the group order. -/
def greatestSecurityBits : UInt32 := 254

/-- The pairing that public parameters are made for. -/
def pairingDescription : String := "bn254 type-3 optimal ate"

/-- A security level that the curve offers. -/
structure SecurityLevel where
  /-- The level in bits. -/
  bits : UInt32
  /-- It is not 0. -/
  pos : 0 < bits
  /-- It is not above the greatest one. -/
  le : bits ≤ greatestSecurityBits

/-- The security level of a number of bits. -/
def SecurityLevel.ofBits? (bits : UInt32) : Option SecurityLevel :=
  if h : 0 < bits ∧ bits ≤ greatestSecurityBits then some ⟨bits, h.1, h.2⟩ else none

/-- What everybody knows: the generators, the blinded secrets and the attributes. -/
structure PublicParameters (S : Suite) where
  /-- The security level asked for. -/
  level : SecurityLevel
  /-- The generator `g₁`. -/
  g1 : S.G1
  /-- The generator `g₂`. -/
  g2 : S.G2
  /-- The point `g₁^a`. -/
  g1a : S.G1
  /-- The value `e(g₁, g₂)^α`. -/
  blinding : S.Gt
  /-- The registered attributes. -/
  registry : Registry S.G1

/-- The master key `g₁^α`. -/
structure MasterKey (S : Suite) where
  /-- The point. -/
  point : S.G1

variable {S : Suite}

/-- Draws the generators and the secrets for a security level. -/
def setup (S : Suite) (bits : UInt32) : Trial (PublicParameters S × MasterKey S) := do
  match SecurityLevel.ofBits? bits with
  | none => throw (.unsupportedSecurityLevel bits greatestSecurityBits)
  | some level =>
    let g1 ← S.g1.random
    let g2 ← S.g2.random
    let α ← Randomness.scalar
    let a ← Randomness.scalar
    let pp : PublicParameters S :=
      { level, g1, g2
        g1a := S.g1.multiple g1 a
        blinding := S.gt.pow (S.pair g1 g2) α
        registry := .empty }
    return (pp, ⟨S.g1.multiple g1 α⟩)

namespace PublicParameters

/-- Registers a name under the next id. A point is drawn for it unless the name is empty,
even if the registry then refuses the name. -/
def register (pp : PublicParameters S) (name : String) :
    Trial (PublicParameters S × UInt32) := do
  if name.isEmpty then throw (.invalidAttribute .emptyName)
  let point ← S.g1.random
  let id := pp.registry.nextId
  let registry ← pp.registry.insert id ⟨name, point⟩
  return ({ pp with registry }, id)

/-- The matrix of a policy over registered names. -/
def compile (pp : PublicParameters S) (policy : Policy) : Except Failure ShareMatrix := do
  let tree ← policy.resolve pp.registry.idOf?
  tree.compile

/-- Whether an id is registered. -/
def knows (pp : PublicParameters S) (id : UInt32) : Bool :=
  (pp.registry.attribute? id).isSome

/-- Checks that a master key belongs to the parameters: `e(g₁^α, g₂) = e(g₁, g₂)^α`. -/
def checkMasterKey (pp : PublicParameters S) (msk : MasterKey S) : Except Failure Unit :=
  if S.pair msk.point pp.g2 = pp.blinding then .ok ()
  else .error (.invalidMasterKey .foreign)

end PublicParameters

end AttributeEncryption
