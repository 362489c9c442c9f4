import AttributeEncryption.Algebra.Residue

/-!
# Shares

The share of a row is its product with a vector of scalars, whose first entry is the
secret.
-/

namespace AttributeEncryption

/-- The product of a row and a vector. -/
def dot (row : List Int32) (vector : List Scalar) : Scalar :=
  (row.zip vector).foldl (fun sum (entry, value) => sum + Scalar.ofInt entry.toInt * value) 0

/-- The share of one row, which has to be as wide as the vector is long. -/
def share (vector : List Scalar) (row : List Int32) : Except Failure Scalar :=
  if row.length = vector.length then .ok (dot row vector)
  else .error (.invalidCiphertext (.shareWidth row.length vector.length))

/-- The shares of all rows; the first row of another width decides. -/
def shares (rows : List (List Int32)) (vector : List Scalar) : Except Failure (List Scalar) :=
  rows.mapM (share vector)

end AttributeEncryption
