import AttributeEncryption.Sharing.Elimination

/-!
# Matrices with kept weights

A `Workspace` is a matrix together with the weights that were computed last. Only a
successful computation replaces them; what is stored or compared is the matrix alone.
-/

namespace AttributeEncryption

/-- A matrix and the weights that were computed last. -/
structure Workspace where
  /-- The matrix. -/
  matrix : ShareMatrix
  /-- The weights that the last successful computation gave. -/
  last : Option Weights

namespace Workspace

/-- A matrix for which no weights were computed. -/
def ofMatrix (m : ShareMatrix) : Workspace :=
  ⟨m, none⟩

/-- Computes the weights for the rows that are not in `unavailable` and keeps them. -/
def compute (w : Workspace) (unavailable : List Nat) : Except Failure Workspace := do
  let weights ← w.matrix.weights unavailable
  return { w with last := some weights }

/-- Whether two workspaces have the same matrix. -/
def same (w w' : Workspace) : Bool :=
  w.matrix == w'.matrix

end Workspace

end AttributeEncryption
