import AttributeEncryption.Sharing.Matrix
import AttributeEncryption.Wire.Framing

/-!
# Matrices as words

A matrix is written as its number of rows, its number of columns, its entries row by row,
both numbers once more in the opposite order, the number of labels, and for every label
the attribute id and the row. Reading takes the labels in any order.
-/

namespace AttributeEncryption.ShareMatrix

/-- The words of a matrix. -/
def write (m : ShareMatrix) : Written :=
  let entries (row : List Int32) : List UInt8 := row.flatMap Frame.signedWord
  let label (pair : UInt32 × Nat) : Written :=
    Frame.sequence [.ok (Frame.word pair.1), Frame.length pair.2]
  Frame.sequence
    ([Frame.length m.rowCount, Frame.length m.columns, .ok (m.rows.flatMap entries),
      Frame.length m.columns, Frame.length m.rowCount, Frame.length m.labels.length] ++
      m.labels.zipIdx.map label)

/-- Reads labels for `rowCount` rows after those in `placed`, which go with the rows they
name. -/
def readLabels (rowCount : Nat) :
    Nat → List (Nat × UInt32) → Reader (List (Nat × UInt32))
  | 0, placed => return placed
  | count + 1, placed => do
    let id ← Reader.word
    let row ← Reader.length
    if rowCount ≤ row then Reader.refuse (.invalidData (.rowOutOfRange row))
    else if placed.any (·.1 == row) then Reader.refuse (.invalidData (.rowLabelledTwice row))
    else readLabels rowCount count ((row, id) :: placed)

/-- The labels in the order of the rows they go with. -/
def inRowOrder (rowCount : Nat) (placed : List (Nat × UInt32)) : List UInt32 :=
  (List.range rowCount).filterMap fun row => placed.lookup row

/-- Reads a matrix. -/
def read : Reader ShareMatrix := do
  let rowCount ← Reader.length
  let columns ← Reader.length
  if rowCount = 0 then Reader.refuse .emptyMatrix
  else if columns = 0 then Reader.refuse (.invalidData .noColumns)
  else
    let rows ← Reader.many (Reader.many Reader.signedWord columns) rowCount
    let restatedColumns ← Reader.length
    let restatedRows ← Reader.length
    if restatedColumns ≠ columns ∨ restatedRows ≠ rowCount then
      Reader.refuse
        (.invalidData (.dimensions rowCount columns restatedRows restatedColumns))
    else
      let count ← Reader.length
      if count ≠ rowCount then
        Reader.refuse (.invalidData (.labelCount count rowCount))
      else
        let placed ← readLabels rowCount count []
        Reader.check (ofParts rows (inRowOrder rowCount placed))

end AttributeEncryption.ShareMatrix
