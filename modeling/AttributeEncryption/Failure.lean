import AttributeEncryption.Text.Quoted
import AttributeEncryption.Text.Utf8

/-!
# Failures

Everything that the library refuses, as causes. A `Failure` says which kind of object
is at fault; where a kind has more than one cause, a type of its own lists them.
`Failure.message` is the only place that knows the wording.
-/

namespace AttributeEncryption

/-! ## Causes -/

/-- How an input came to be too short. -/
inductive Shortage where
  /-- A word or another field of fixed width was cut off. -/
  | fixedWidth
  /-- A byte string advertised more bytes than there were. -/
  | advertised (length found : Nat)
  deriving DecidableEq

/-- Faults of the medium that bytes come from or go to. -/
inductive StreamFault where
  /-- The input ended inside a value. -/
  | unexpectedEnd (shortage : Shortage)
  /-- A length does not fit the word that has to hold it. -/
  | lengthTooLarge (length : Nat)
  /-- There is no such file. -/
  | notFound
  deriving DecidableEq

/-- A scheme tag other than the expected one. -/
structure TagMismatch where
  /-- The tag that was called for. -/
  expected : List UInt8
  /-- The tag that stood there. -/
  found : List UInt8
  deriving DecidableEq

/-- Faults of an attribute or of a set of attributes. -/
inductive AttributeFault where
  /-- A name has no characters. -/
  | emptyName
  /-- A name is not registered. -/
  | unregisteredName (name : String)
  /-- An id is not registered. -/
  | unregisteredId (id : UInt32)
  /-- A key was asked for without any attribute. -/
  | emptySet
  deriving DecidableEq

/-- Faults of public parameters. -/
inductive ParameterFault where
  /-- They do not start with the scheme's tag. -/
  | tag (mismatch : TagMismatch)
  /-- They state a security level that the curve does not have. -/
  | securityLevel (bits : UInt32)
  /-- They are made for another pairing. -/
  | pairing (description : String)
  /-- Two attributes have one id. -/
  | idAssignedTwice (id : UInt32)
  /-- Two attributes have one name. -/
  | nameListedTwice (name : String)
  deriving DecidableEq

/-- Faults of a master key. -/
inductive MasterKeyFault where
  /-- It does not start with the scheme's tag. -/
  | tag (mismatch : TagMismatch)
  /-- It belongs to other parameters. -/
  | foreign
  /-- There is none. -/
  | notInstalled
  deriving DecidableEq

/-- Faults of a private key. -/
inductive PrivateKeyFault where
  /-- It does not start with the scheme's tag. -/
  | tag (mismatch : TagMismatch)
  /-- It was issued under other parameters. -/
  | foreign
  /-- It holds an attribute that is not registered. -/
  | unregisteredId (id : UInt32)
  /-- It lists an attribute twice. -/
  | idListedTwice (id : UInt32)
  deriving DecidableEq

/-- Faults of a ciphertext or of the matrix in it. -/
inductive CiphertextFault where
  /-- It does not start with the scheme's tag. -/
  | tag (mismatch : TagMismatch)
  /-- It has more or fewer components than its matrix has rows. -/
  | componentCount (components rows : Nat)
  /-- Its policy speaks of an attribute that is not registered. -/
  | unregisteredId (id : UInt32)
  /-- A row is not as wide as the first one. -/
  | raggedRow (row width expected : Nat)
  /-- A row does not fit the vector that it should share. -/
  | shareWidth (width length : Nat)
  /-- A row that should take part has no key component. -/
  | bareRow (row : Nat)
  deriving DecidableEq

/-- Faults of encoded data. -/
inductive DataFault where
  /-- A matrix has rows without entries. -/
  | noColumns
  /-- A row is not as wide as the first one. -/
  | raggedRow (row width expected : Nat)
  /-- There are more or fewer labels than rows. -/
  | labelCount (labels rows : Nat)
  /-- A row repeats the label of an earlier one. -/
  | repeatedLabel (id : UInt32) (row : Nat)
  /-- The dimensions at the end of a matrix differ from those at its head. -/
  | dimensions (rows columns restatedRows restatedColumns : Nat)
  /-- A label names a row that there is not. -/
  | rowOutOfRange (row : Nat)
  /-- Two labels name one row. -/
  | rowLabelledTwice (row : Nat)
  /-- A string is not UTF-8. -/
  | notUtf8 (fault : Utf8.Fault)
  /-- An element has too few bytes. -/
  | elementTooShort
  /-- An element has too many bytes. -/
  | elementTooLong
  /-- Bytes do not make up a word. -/
  | wordWidth
  deriving DecidableEq

/-- Faults of field elements. -/
inductive FieldFault where
  /-- A byte string has the wrong length for the field. -/
  | sliceLength
  /-- A double-width integer has the wrong form. -/
  | wideEncoding
  /-- A number is not in the field. -/
  | notMember
  /-- A decimal text is not read as an element. -/
  | notElement (value : UInt64)
  deriving DecidableEq

/-- Faults of the authenticated cipher. -/
inductive CipherFault where
  /-- The payload cannot hold a nonce and a tag. -/
  | tooShort (length : Nat)
  /-- The tag does not belong to the payload. -/
  | authentication
  /-- The plaintext is too long for the mode. -/
  | tooLong
  deriving DecidableEq

/-! ## Failures and their wording -/

/-- What went wrong, by the kind of object at fault. -/
inductive Failure where
  /-- A formula has two leaves for one attribute. -/
  | duplicateAttribute (id : UInt32)
  /-- A matrix has no rows. -/
  | emptyMatrix
  /-- The search for weights left the range of 64-bit integers. -/
  | coefficientOverflow
  /-- An attribute is at fault. -/
  | invalidAttribute (fault : AttributeFault)
  /-- A policy names an attribute that is not registered. -/
  | noSuchAttribute (name : String)
  /-- An attribute of this name is registered already. -/
  | attributeExists (name : String)
  /-- The curve does not offer the security level asked for. -/
  | unsupportedSecurityLevel (requested greatest : UInt32)
  /-- Public parameters are at fault. -/
  | invalidPublicParameters (fault : ParameterFault)
  /-- A master key is at fault. -/
  | invalidMasterKey (fault : MasterKeyFault)
  /-- A private key is at fault. -/
  | invalidPrivateKey (fault : PrivateKeyFault)
  /-- A ciphertext is at fault. -/
  | invalidCiphertext (fault : CiphertextFault)
  /-- Encoded data is at fault. -/
  | invalidData (fault : DataFault)
  /-- A field element is at fault. -/
  | invalidField (fault : FieldFault)
  /-- A sealed payload does not open. -/
  | notDecrypted (fault : CipherFault)
  /-- The medium is at fault. -/
  | stream (fault : StreamFault)
  /-- Zero of the target group was to be inverted. -/
  | noInverse
  deriving DecidableEq

namespace Shortage

/-- The wording of a shortage. -/
def message : Shortage → String
  | fixedWidth => "failed to fill whole buffer"
  | advertised length found => s!"advertised {length} bytes, found {found}"

end Shortage

namespace StreamFault

/-- The wording of a fault of the medium. -/
def message : StreamFault → String
  | unexpectedEnd shortage => shortage.message
  | lengthTooLarge length => s!"length {length} exceeds u32"
  | notFound => "No such file or directory (os error 2)"

end StreamFault

namespace TagMismatch

/-- The wording of a wrong tag: both tags as quoted text. -/
def message (m : TagMismatch) : String :=
  "expected scheme tag " ++ Quoted.quote (Utf8.decodeLossy m.expected) ++ ", found " ++
    Quoted.quote (Utf8.decodeLossy m.found)

end TagMismatch

namespace AttributeFault

/-- The wording of an attribute's fault. -/
def message : AttributeFault → String
  | emptyName => "attribute names must not be empty"
  | unregisteredName name => s!"attribute {name} is not registered"
  | unregisteredId id => s!"attribute id {id.toNat} is not registered"
  | emptySet => "empty attribute set"

end AttributeFault

namespace ParameterFault

/-- The wording of a fault of public parameters. -/
def message : ParameterFault → String
  | tag mismatch => mismatch.message
  | securityLevel bits => s!"unsupported security level of {bits.toNat} bits"
  | pairing description => "unsupported pairing " ++ Quoted.quote description
  | idAssignedTwice id => s!"attribute id {id.toNat} assigned twice"
  | nameListedTwice name => s!"attribute {name} listed twice"

end ParameterFault

namespace MasterKeyFault

/-- The wording of a master key's fault. -/
def message : MasterKeyFault → String
  | tag mismatch => mismatch.message
  | foreign => "master key does not belong to these public parameters"
  | notInstalled => "no master key installed"

end MasterKeyFault

namespace PrivateKeyFault

/-- The wording of a private key's fault. -/
def message : PrivateKeyFault → String
  | tag mismatch => mismatch.message
  | foreign => "private key was not issued under these public parameters"
  | unregisteredId id => s!"private key holds unregistered attribute id {id.toNat}"
  | idListedTwice id => s!"attribute id {id.toNat} listed twice"

end PrivateKeyFault

namespace CiphertextFault

/-- The wording of a ciphertext's fault. -/
def message : CiphertextFault → String
  | tag mismatch => mismatch.message
  | componentCount components rows =>
    s!"{components} ciphertext components for a matrix with {rows} rows"
  | unregisteredId id => s!"policy references unregistered attribute id {id.toNat}"
  | raggedRow row width expected => s!"matrix row {row} has width {width}, expected {expected}"
  | shareWidth width length => s!"row of width {width} cannot share a vector of length {length}"
  | bareRow row => s!"row {row} has no attribute"

end CiphertextFault

namespace DataFault

/-- The wording of a fault of encoded data. -/
def message : DataFault → String
  | noColumns => "matrix has no columns"
  | raggedRow row width expected => s!"row {row} has width {width}, expected {expected}"
  | labelCount labels rows => s!"{labels} row labels for {rows} rows"
  | repeatedLabel id row =>
    s!"row labeling is not a bijection at attribute {id.toNat} / row {row}"
  | dimensions rows columns restatedRows restatedColumns =>
    s!"matrix header {rows}x{columns} disagrees with restated {restatedRows}x{restatedColumns}"
  | rowOutOfRange row => s!"row label {row} out of range"
  | rowLabelledTwice row => s!"row {row} labeled twice"
  | notUtf8 fault => "string is not utf-8: " ++ fault.message
  | elementTooShort => "Unexpected length of input"
  | elementTooLong => "Not all bytes read"
  | wordWidth => "could not convert slice to array"

end DataFault

namespace FieldFault

/-- The wording of a field element's fault. -/
def message : FieldFault → String
  | sliceLength => "FieldError::InvalidSliceLength"
  | wideEncoding => "FieldError::InvalidU512Encoding"
  | notMember => "FieldError::NotMember"
  | notElement value => s!"{value.toNat} is not a field element"

end FieldFault

namespace CipherFault

/-- The wording of a fault of the authenticated cipher. -/
def message : CipherFault → String
  | tooShort length => s!"payload of {length} bytes is shorter than nonce and tag"
  | authentication => "AES-GCM authentication failed"
  | tooLong => "AES-GCM encryption failed"

end CipherFault

namespace Failure

/-- The wording of a failure. -/
def message : Failure → String
  | duplicateAttribute id =>
    s!"duplicate attribute {id.toNat} in monotone formula: each attribute may appear only once"
  | emptyMatrix => "share generating matrix has no rows"
  | coefficientOverflow => "integer overflow while computing reconstruction coefficients"
  | invalidAttribute fault => "invalid attribute: " ++ fault.message
  | noSuchAttribute name => s!"no such attribute: {name}"
  | attributeExists name => s!"attribute {name} already exists"
  | unsupportedSecurityLevel requested greatest =>
    s!"unsupported security level: {requested.toNat} bits (supported: 1..={greatest.toNat})"
  | invalidPublicParameters fault => "invalid public parameters: " ++ fault.message
  | invalidMasterKey fault => "invalid master secret key: " ++ fault.message
  | invalidPrivateKey fault => "invalid private key: " ++ fault.message
  | invalidCiphertext fault => "invalid ciphertext: " ++ fault.message
  | invalidData fault => "deserialization error: " ++ fault.message
  | invalidField fault => "field error: " ++ fault.message
  | notDecrypted fault => "decryption failed: " ++ fault.message
  | stream fault => fault.message
  | noInverse => "zero has no inverse"

end Failure

end AttributeEncryption
