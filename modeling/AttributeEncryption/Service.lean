import AttributeEncryption.Scheme.Payload

/-!
# Services

A service works with public parameters that it may share with other services; with a
master key it also issues keys. A `Deployment` holds the parameters in use and the
services on them. A call of a service is a step of the whole deployment
(`Deployment.perform`), so that what one service registers is there for all services with
the same parameters.
-/

namespace AttributeEncryption

/-! ## Configuration -/

/-- How a service is set up. -/
structure Configuration where
  /-- The security level in bits. -/
  securityBits : UInt32
  /-- The number of random generators asked for. -/
  generators : UInt64
  deriving DecidableEq

namespace Configuration

/-- The configuration when nothing is said. -/
def default : Configuration :=
  ⟨254, 4⟩

/-- The JSON form. -/
def toJson (c : Configuration) : Json :=
  .record
    [("security_bits", .ofUInt32 c.securityBits), ("rng_pool_size", .integer c.generators.toNat)]

/-- Reads the JSON form; a missing field has its default value. -/
def ofJson (j : Json) : Except Json.Refusal Configuration := do
  match ← j.asFields ["security_bits", "rng_pool_size"] with
  | [bits, generators] =>
    let securityBits ← Json.optional default.securityBits Json.asUInt32 bits
    let count (j : Json) :=
      (j.integerBetween 0 0xFFFFFFFFFFFFFFFF).map fun n => UInt64.ofNat n.toNat
    let generators ← Json.optional default.generators count generators
    return { securityBits, generators }
  | _ => .error .shape

end Configuration

/-- The number of generators in a pool that was asked for `size` of them: there is always
one. -/
def poolSize (size : Nat) : Nat :=
  max 1 size

/-! ## Deployments -/

/-- A service: which parameters it works with, and its master key if it has one. -/
structure Service (S : Suite) where
  /-- The place of its parameters in the deployment. -/
  parameters : Nat
  /-- The master key. -/
  masterKey : Option (MasterKey S)

/-- All parameters in use and all services by name. -/
structure Deployment (S : Suite) where
  /-- The parameters that services share. -/
  parameters : List (PublicParameters S)
  /-- The services, each with its name. -/
  services : List (String × Service S)

variable {S : Suite}

namespace Deployment

/-- The deployment without services. -/
def empty : Deployment S :=
  ⟨[], []⟩

/-- The service with a name. -/
def service? (d : Deployment S) (name : String) : Option (Service S) :=
  d.services.lookup name

/-- The parameters of a service. -/
def parametersOf? (d : Deployment S) (s : Service S) : Option (PublicParameters S) :=
  d.parameters[s.parameters]?

/-- The deployment without the service of a name. -/
def remove (d : Deployment S) (name : String) : Deployment S :=
  { d with services := d.services.filter fun e => e.1 != name }

/-- The deployment with a service of a name, in the place of the one that was there. -/
def put (d : Deployment S) (name : String) (s : Service S) : Deployment S :=
  let d := d.remove name
  { d with services := (name, s) :: d.services }

/-- The deployment with new parameters at a place. -/
def update (d : Deployment S) (place : Nat) (pp : PublicParameters S) : Deployment S :=
  { d with parameters := d.parameters.set place pp }

/-- Sets up parameters of their own for a service that keeps the master key. -/
def start (d : Deployment S) (name : String) (c : Configuration) : Trial (Deployment S) := do
  let (pp, msk) ← setup S c.securityBits
  let d := { d with parameters := d.parameters ++ [pp] }
  return d.put name ⟨d.parameters.length - 1, some msk⟩

/-- Sets up a service without master key on parameters that nothing uses yet. -/
def adopt (d : Deployment S) (name : String) (pp : PublicParameters S) : Deployment S :=
  put { d with parameters := d.parameters ++ [pp] } name ⟨d.parameters.length, none⟩

/-- Sets up a service without master key on the parameters of another one. -/
def share (d : Deployment S) (name : String) (other : Service S) : Deployment S :=
  d.put name ⟨other.parameters, none⟩

/-- Installs a master key that belongs to the parameters of a service. If it does not, the
service is gone. -/
def install (d : Deployment S) (name : String) (s : Service S) (pp : PublicParameters S)
    (msk : MasterKey S) : Except Failure Unit × Deployment S :=
  match pp.checkMasterKey msk with
  | .ok () => (.ok (), d.put name { s with masterKey := some msk })
  | .error cause => (.error cause, d.remove name)

end Deployment

namespace Service

/-- The master key, which has to be installed. -/
def requireMasterKey (s : Service S) : Except Failure (MasterKey S) :=
  match s.masterKey with
  | some msk => .ok msk
  | none => .error (.invalidMasterKey .notInstalled)

/-- Issues a key for the attributes of some names. -/
def issueForNames (s : Service S) (pp : PublicParameters S) (names : List String) :
    Trial (PrivateKey S) := do
  let msk ← s.requireMasterKey
  pp.issueForNames msk names

/-- Issues a key for the attributes of some ids. -/
def issueForIds (s : Service S) (pp : PublicParameters S) (ids : List UInt32) :
    Trial (PrivateKey S) := do
  let msk ← s.requireMasterKey
  pp.issueForIds msk ids

end Service

/-! ## Calls -/

/-- What a service can be asked for. None of it changes the parameters. -/
inductive Request (S : Suite) where
  /-- The matrix of a policy. -/
  | compile (policy : Policy)
  /-- A key for the attributes of some names. -/
  | issueForNames (names : List String)
  /-- A key for the attributes of some ids. -/
  | issueForIds (ids : List UInt32)
  /-- A header and the value that it hides. -/
  | encapsulate (matrix : ShareMatrix)
  /-- The ciphertext of some data. -/
  | encrypt (matrix : ShareMatrix) (data : List UInt8)
  /-- The ciphertext of some data that shows whether it was changed. -/
  | wrap (matrix : ShareMatrix) (data : List UInt8)
  /-- The value that a header hides. -/
  | recover (header : Header S) (sk : PrivateKey S)
  /-- The data of a ciphertext. -/
  | decrypt (ct : Ciphertext S) (sk : PrivateKey S)
  /-- The data of a ciphertext that was not changed. -/
  | unwrap (ct : Ciphertext S) (sk : PrivateKey S)

/-- What a call gives. -/
inductive Reply (S : Suite) where
  /-- Nothing but that it was done. -/
  | done
  /-- The id of a registered name. -/
  | registered (id : UInt32)
  /-- A matrix. -/
  | compiled (matrix : ShareMatrix)
  /-- A private key. -/
  | issued (sk : PrivateKey S)
  /-- A header and the value that it hides. -/
  | encapsulated (header : Header S) (value : S.Gt)
  /-- A ciphertext. -/
  | encrypted (ct : Ciphertext S)
  /-- The value that a header hides. -/
  | recovered (value : S.Gt)
  /-- The data of a ciphertext. -/
  | opened (data : List UInt8)

/-- What happens to the service of a name. -/
inductive Call (S : Suite) where
  /-- It is set up with parameters of its own. -/
  | start (name : String) (c : Configuration)
  /-- It is set up on parameters that nothing uses yet. -/
  | adopt (name : String) (pp : PublicParameters S)
  /-- It is set up on the parameters of another service. -/
  | share (name other : String)
  /-- It gets a master key. -/
  | install (name : String) (msk : MasterKey S)
  /-- It registers an attribute. -/
  | register (name attributeName : String)
  /-- It is asked for something. -/
  | ask (name : String) (request : Request S)

/-- The reply of a service. -/
def Service.answer (s : Service S) (pp : PublicParameters S) : Request S → Trial (Reply S)
  | .compile policy => do
    let matrix ← pp.compile policy
    return .compiled matrix
  | .issueForNames names => do
    let sk ← s.issueForNames pp names
    return .issued sk
  | .issueForIds ids => do
    let sk ← s.issueForIds pp ids
    return .issued sk
  | .encapsulate matrix => do
    let (header, value) ← pp.encapsulate matrix
    return .encapsulated header value
  | .encrypt matrix data => do
    let ct ← pp.encrypt matrix data
    return .encrypted ct
  | .wrap matrix data => do
    let ct ← pp.wrap matrix data
    return .encrypted ct
  | .recover header sk => do
    let value ← pp.recover header sk
    return .recovered value
  | .decrypt ct sk => do
    let data ← pp.decrypt ct sk
    return .opened data
  | .unwrap ct sk => do
    let data ← pp.unwrap ct sk
    return .opened data

namespace Deployment

/-- The service with a name and its parameters. -/
def find? (d : Deployment S) (name : String) : Option (Service S × PublicParameters S) := do
  let s ← d.service? name
  let pp ← d.parametersOf? s
  return (s, pp)

/-- What a call gives, if there is a service that it is for, and the deployment after it. -/
abbrev Outcome (S : Suite) := Option (Except Failure (Reply S)) × Deployment S

/-- Goes on with the deployment that a computation gives, or with the old one if it fails. -/
def attempt (d : Deployment S) (t : Trial (Reply S × Deployment S)) : Draw (Outcome S) := do
  match ← t.run with
  | .ok (reply, d') => return (some (.ok reply), d')
  | .error cause => return (some (.error cause), d)

/-- Goes on with a service and its parameters, if there is the service. -/
def withService (d : Deployment S) (name : String)
    (f : Service S → PublicParameters S → Draw (Outcome S)) : Draw (Outcome S) :=
  match d.find? name with
  | some (s, pp) => f s pp
  | none => return (none, d)

/-- Performs a call. -/
def perform (d : Deployment S) : Call S → Draw (Outcome S)
  | .start name c => d.attempt do
    let d ← d.start name c
    return (.done, d)
  | .adopt name pp => return (some (.ok .done), d.adopt name pp)
  | .share name other =>
    d.withService other fun s _ => return (some (.ok .done), d.share name s)
  | .install name msk =>
    d.withService name fun s pp =>
      let (result, d) := d.install name s pp msk
      return (some (result.map fun _ => .done), d)
  | .register name attributeName =>
    d.withService name fun s pp => d.attempt do
      let (pp, id) ← pp.register attributeName
      return (.registered id, d.update s.parameters pp)
  | .ask name request =>
    d.withService name fun s pp => d.attempt do
      let reply ← s.answer pp request
      return (reply, d)

end Deployment

end AttributeEncryption
