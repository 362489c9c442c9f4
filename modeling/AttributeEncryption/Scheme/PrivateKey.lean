import AttributeEncryption.Scheme.Parameters

/-!
# Private keys

A key for a set of attributes is made with a scalar `t` of its own: `K = g₁^α · g₁^{a t}`,
`L = g₂^t` and for every attribute the power of its point with `t`. The check of a key
shows that `K` and `L` go together, and that its attributes are registered.
-/

namespace AttributeEncryption

/-- A key for a set of attributes. -/
structure PrivateKey (S : Suite) where
  /-- The point `K`. -/
  k : S.G1
  /-- The point `L`. -/
  l : S.G2
  /-- The component of each attribute. -/
  components : IdMap S.G1

variable {S : Suite}

namespace PrivateKey

/-- Whether the key has a component for an attribute. -/
def holds (sk : PrivateKey S) (id : UInt32) : Bool :=
  sk.components.contains id

/-- Whether two keys have the same points. -/
def same (sk sk' : PrivateKey S) : Bool :=
  S.g1.same sk.k sk'.k && S.g2.same sk.l sk'.l &&
    sk.components.ids == sk'.components.ids &&
    (sk.components.entries.zip sk'.components.entries).all fun (e, e') => S.g1.same e.2 e'.2

end PrivateKey

namespace PublicParameters

/-- Checks that a key was issued under the parameters: `e(K, g₂) = e(g₁, g₂)^α · e(g₁^a, L)`,
and its attributes are registered. The least id that is not decides. -/
def checkPrivateKey (pp : PublicParameters S) (sk : PrivateKey S) : Except Failure Unit :=
  if S.pair sk.k pp.g2 = S.gt.mul pp.blinding (S.pair pp.g1a sk.l) then
    match sk.components.ids.find? fun id => !pp.knows id with
    | none => .ok ()
    | some id => .error (.invalidPrivateKey (.unregisteredId id))
  else .error (.invalidPrivateKey .foreign)

/-- The attributes of some names; the first one that is not registered decides. -/
def lookUpNames (pp : PublicParameters S) (names : List String) :
    Except Failure (List (UInt32 × Attribute S.G1)) :=
  names.mapM fun name =>
    match pp.registry.named? name with
    | some a => .ok a
    | none => .error (.invalidAttribute (.unregisteredName name))

/-- The attributes of some ids; the first one that is not registered decides. -/
def lookUpIds (pp : PublicParameters S) (ids : List UInt32) :
    Except Failure (List (UInt32 × Attribute S.G1)) :=
  ids.mapM fun id =>
    match pp.registry.attribute? id with
    | some a => .ok (id, a)
    | none => .error (.invalidAttribute (.unregisteredId id))

/-- The components of some attributes for the scalar `t`. -/
def componentsFor (attributes : List (UInt32 × Attribute S.G1)) (t : Scalar) : IdMap S.G1 :=
  attributes.foldl (fun m (id, a) => m.insert id (S.g1.multiple a.point t)) .empty

/-- Issues a key for some attributes. The scalar is drawn after all checks. -/
def issue (pp : PublicParameters S) (msk : MasterKey S)
    (attributes : List (UInt32 × Attribute S.G1)) : Trial (PrivateKey S) := do
  if attributes.isEmpty then throw (.invalidAttribute .emptySet)
  pp.checkMasterKey msk
  let t ← Randomness.scalar
  let k := S.g1.add msk.point (S.g1.multiple pp.g1a t)
  return { k, l := S.g2.multiple pp.g2 t, components := componentsFor attributes t }

/-- Issues a key for the attributes of some names. -/
def issueForNames (pp : PublicParameters S) (msk : MasterKey S) (names : List String) :
    Trial (PrivateKey S) := do
  let attributes ← pp.lookUpNames names
  pp.issue msk attributes

/-- Issues a key for the attributes of some ids. -/
def issueForIds (pp : PublicParameters S) (msk : MasterKey S) (ids : List UInt32) :
    Trial (PrivateKey S) := do
  let attributes ← pp.lookUpIds ids
  pp.issue msk attributes

end PublicParameters

end AttributeEncryption
