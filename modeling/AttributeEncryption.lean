import AttributeEncryption.Algebra.Codec
import AttributeEncryption.Algebra.Power
import AttributeEncryption.Algebra.Residue
import AttributeEncryption.Bytes
import AttributeEncryption.Cipher.Aes
import AttributeEncryption.Cipher.Gcm
import AttributeEncryption.Curve.Jacobian
import AttributeEncryption.Curve.Pairing
import AttributeEncryption.Curve.Tower
import AttributeEncryption.Digest.Keccak
import AttributeEncryption.Failure
import AttributeEncryption.Formula
import AttributeEncryption.IdMap
import AttributeEncryption.Json
import AttributeEncryption.Proofs.Elimination.Echelon
import AttributeEncryption.Proofs.Elimination.Exactness
import AttributeEncryption.Proofs.Elimination.Saturation
import AttributeEncryption.Proofs.Elimination.Unimodular
import AttributeEncryption.Proofs.Elimination.UnitPivots
import AttributeEncryption.Proofs.Elimination.Verdict
import AttributeEncryption.Proofs.GroupOrder
import AttributeEncryption.Proofs.Matrix.Builders
import AttributeEncryption.Proofs.Matrix.Runs
import AttributeEncryption.Proofs.Matrix.Tables
import AttributeEncryption.Proofs.Powers
import AttributeEncryption.Proofs.Runs
import AttributeEncryption.Proofs.Scalars
import AttributeEncryption.Proofs.Scheme.Attributes
import AttributeEncryption.Proofs.Scheme.Checks
import AttributeEncryption.Proofs.Scheme.Collusion
import AttributeEncryption.Proofs.Scheme.Compilation
import AttributeEncryption.Proofs.Scheme.Groups
import AttributeEncryption.Proofs.Scheme.Growth
import AttributeEncryption.Proofs.Scheme.Headers
import AttributeEncryption.Proofs.Scheme.Issuing
import AttributeEncryption.Proofs.Scheme.KeyChecks
import AttributeEncryption.Proofs.Scheme.Keys
import AttributeEncryption.Proofs.Scheme.Names
import AttributeEncryption.Proofs.Scheme.Parameters
import AttributeEncryption.Proofs.Scheme.Payloads
import AttributeEncryption.Proofs.Scheme.Policies
import AttributeEncryption.Proofs.Scheme.Recovery
import AttributeEncryption.Proofs.Scheme.Registrations
import AttributeEncryption.Proofs.Scheme.RoundTrip
import AttributeEncryption.Proofs.Scheme.Services
import AttributeEncryption.Proofs.Scheme.Tables
import AttributeEncryption.Proofs.Scheme.UntrustedInput
import AttributeEncryption.Proofs.Scheme.WrongKeys
import AttributeEncryption.Proofs.SpanProgram.Combination
import AttributeEncryption.Proofs.SpanProgram.Distribution
import AttributeEncryption.Proofs.SpanProgram.Privacy
import AttributeEncryption.Proofs.SpanProgram.Reconstruction
import AttributeEncryption.Proofs.SpanProgram.Shares
import AttributeEncryption.Proofs.Wire.Codecs
import AttributeEncryption.Proofs.Wire.Entries
import AttributeEncryption.Proofs.Wire.Formats
import AttributeEncryption.Proofs.Wire.Frames
import AttributeEncryption.Proofs.Wire.Matrix
import AttributeEncryption.Proofs.Wire.Numbers
import AttributeEncryption.Proofs.Wire.Sequences
import AttributeEncryption.Proofs.Wire.StoredObjects
import AttributeEncryption.Proofs.Wire.Utf8
import AttributeEncryption.Randomness
import AttributeEncryption.Scheme.Header
import AttributeEncryption.Scheme.Parameters
import AttributeEncryption.Scheme.Payload
import AttributeEncryption.Scheme.PrivateKey
import AttributeEncryption.Scheme.Registry
import AttributeEncryption.Scheme.Wire
import AttributeEncryption.Secret
import AttributeEncryption.Service
import AttributeEncryption.Sharing.Builder
import AttributeEncryption.Sharing.Compile
import AttributeEncryption.Sharing.Elimination
import AttributeEncryption.Sharing.Matrix
import AttributeEncryption.Sharing.Shares
import AttributeEncryption.Sharing.Weights
import AttributeEncryption.Sharing.Workspace
import AttributeEncryption.Storage
import AttributeEncryption.Suite
import AttributeEncryption.Text.Quoted
import AttributeEncryption.Text.Unprintable
import AttributeEncryption.Text.Utf8
import AttributeEncryption.Wire.Framing
import AttributeEncryption.Wire.Matrix
import AttributeEncryption.Proofs.FieldOrder
import AttributeEncryption.Proofs.Tower
import AttributeEncryption.Proofs.Scheme.SignedPowers
