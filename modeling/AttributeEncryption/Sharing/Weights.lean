import AttributeEncryption.Json

/-!
# Reconstruction weights

Integer weights for the rows of a matrix, with a common scale. They reach the target
if the weighted sum of the rows is `(scale, 0, …, 0)`. The sum is formed in the range of
64-bit integers, a value outside of it being replaced by the nearer end.
-/

namespace AttributeEncryption

/-! ## The range of 64-bit integers -/

/-- The least 64-bit integer. -/
def leastWord : Int :=
  -0x8000000000000000

/-- The greatest 64-bit integer. -/
def greatestWord : Int :=
  0x7FFFFFFFFFFFFFFF

/-- An integer, or the end of the 64-bit range that is nearer to it. -/
def clampWord (n : Int) : Int :=
  max leastWord (min n greatestWord)

/-! ## Weights -/

/-- A weight for each row, and their common scale. -/
structure Weights where
  /-- The weights in row order. -/
  coefficients : List Int
  /-- What the first column should sum up to. -/
  scale : Int
  deriving DecidableEq

namespace Weights

/-- The weight of a row; rows without one have weight 0. -/
def coefficient (w : Weights) (row : Nat) : Int :=
  w.coefficients.getD row 0

/-- Adds `weight` times a row to a sum, entry by entry. Entries of the row beyond the
width of the sum are dropped. -/
def addScaled (weight : Int) : List Int → List Int32 → List Int
  | sum :: sums, entry :: row =>
    clampWord (sum + clampWord (weight * entry.toInt)) :: addScaled weight sums row
  | sums, [] => sums
  | [], _ => []

/-- The weighted sum of the rows, as wide as the first one. -/
def combine (w : Weights) (rows : List (List Int32)) : List Int :=
  let zero : List Int := List.replicate (rows.headD []).length 0
  (rows.zip w.coefficients).foldl (fun sum (row, weight) => addScaled weight sum row) zero

/-- Whether the weighted sum of the rows is `(scale, 0, …, 0)`. -/
def reachesTarget (w : Weights) (rows : List (List Int32)) : Bool :=
  match w.combine rows with
  | [] => false
  | first :: rest => first == w.scale && rest.all (· == 0)

/-- The JSON form: the weights and the scale. -/
def toJson (w : Weights) : Json :=
  .record [("coefficients", .list (w.coefficients.map .integer)), ("scale", .integer w.scale)]

/-- Reads the JSON form. -/
def ofJson (j : Json) : Except Json.Refusal Weights := do
  let word := Json.integerBetween leastWord greatestWord
  match ← j.asFields ["coefficients", "scale"] with
  | [coefficients, scale] =>
    let coefficients ← Json.required (Json.asList word) coefficients
    let scale ← Json.required word scale
    return { coefficients, scale }
  | _ => .error .shape

end Weights

end AttributeEncryption
