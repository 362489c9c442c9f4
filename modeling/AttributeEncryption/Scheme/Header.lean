import AttributeEncryption.Scheme.PrivateKey
import AttributeEncryption.Sharing.Elimination
import AttributeEncryption.Sharing.Shares

/-!
# Ciphertext headers

The part of a ciphertext that carries the policy and hides a random value, its
multiplier `e(g₁, g₂)^{α s}`. The secret `s` is shared over the rows of the matrix: the
row with share `λ` and point `h` gets `g₁^{a λ} · h^{-r}` and `g₂^r` for a scalar `r` of
its own. `recover` puts the shares of the rows that a key holds together again.
-/

namespace AttributeEncryption

/-- The policy-dependent part of a ciphertext. -/
structure Header (S : Suite) where
  /-- The matrix of the policy. -/
  matrix : ShareMatrix
  /-- The point `g₂^s`. -/
  base : S.G2
  /-- The two points of each row. -/
  pairs : List (S.G1 × S.G2)

variable {S : Suite}

namespace Header

/-- Whether two headers have the same matrix and the same points. -/
def same (h h' : Header S) : Bool :=
  h.matrix == h'.matrix && S.g2.same h.base h'.base && h.pairs.length == h'.pairs.length &&
    (h.pairs.zip h'.pairs).all fun (p, p') => S.g1.same p.1 p'.1 && S.g2.same p.2 p'.2

end Header

namespace PublicParameters

/-- Checks that a header has a pair for every row and that its labels are registered. The
first label that is not decides. -/
def checkHeader (pp : PublicParameters S) (h : Header S) : Except Failure Unit :=
  if h.pairs.length = h.matrix.rowCount then
    match h.matrix.labels.find? fun id => !pp.knows id with
    | none => .ok ()
    | some id => .error (.invalidCiphertext (.unregisteredId id))
  else .error (.invalidCiphertext (.componentCount h.pairs.length h.matrix.rowCount))

/-- Draws the pairs of the rows, given the attribute and the share of each. -/
def drawPairs (pp : PublicParameters S) :
    List ((UInt32 × Attribute S.G1) × Scalar) → Draw (List (S.G1 × S.G2))
  | [] => return []
  | ((_, a), share) :: rest => do
    let r ← Randomness.scalar
    let pair :=
      (S.sub1 (S.g1.multiple pp.g1a share) (S.g1.multiple a.point r), S.g2.multiple pp.g2 r)
    let pairs ← pp.drawPairs rest
    return pair :: pairs

/-- Draws a header for a matrix over registered attributes, and the multiplier that it
hides. -/
def encapsulate (pp : PublicParameters S) (matrix : ShareMatrix) : Trial (Header S × S.Gt) := do
  let attributes ← pp.lookUpIds matrix.labels
  let vector ← Randomness.scalars matrix.columns
  match vector with
  | [] => throw .emptyMatrix
  | secret :: _ =>
    let shares ← shares matrix.rows vector
    let pairs ← pp.drawPairs (attributes.zip shares)
    let base := S.g2.multiple pp.g2 secret
    return ({ matrix, base, pairs }, S.gt.pow pp.blinding secret)

/-- Multiplies up the contributions of the rows from `row` on, whose weights, labels and
pairs are listed. Rows of weight 0 contribute nothing. -/
def gather (sk : PrivateKey S) (scaleInverse : Scalar) (row : Nat) (product : S.Gt) :
    List (Int × UInt32 × S.G1 × S.G2) → Except Failure S.Gt
  | [] => .ok product
  | (weight, id, c, d) :: rest =>
    if weight = 0 || !sk.holds id then gather sk scaleInverse (row + 1) product rest
    else
      match sk.components.get? id with
      | none => .error (.invalidCiphertext (.bareRow row))
      | some component => do
        let term := S.gt.mul (S.pair c sk.l) (S.pair component d)
        let product ← S.mulSignedPow product term weight scaleInverse
        gather sk scaleInverse (row + 1) product rest

/-- The value that the rows of a header held by a key put together. It is the multiplier
of the header if the held rows reach the target, and another value if they do not. -/
def recover (pp : PublicParameters S) (h : Header S) (sk : PrivateKey S) :
    Except Failure S.Gt := do
  pp.checkPrivateKey sk
  pp.checkHeader h
  let w ← h.matrix.weights (h.matrix.unavailable sk.holds)
  match (Scalar.ofNat w.scale.natAbs).inverse? with
  | none => .error .coefficientOverflow
  | some scaleInverse =>
    let rows := w.coefficients.zip (h.matrix.labels.zip h.pairs)
    let denominator ← gather sk scaleInverse 0 S.gt.one rows
    match S.gt.inverse? denominator with
    | none => .error .noInverse
    | some inverse => return S.gt.mul (S.pair sk.k h.base) inverse

end PublicParameters

end AttributeEncryption
