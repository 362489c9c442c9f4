import AttributeEncryption.Formula
import AttributeEncryption.Sharing.Builder

/-!
# Matrices of access trees

Every leaf of an access tree becomes a row. The root starts with the vector `(1)`; a
disjunction hands its vector to both parts; a conjunction takes the next unused column
and splits: its left part gets the vector with 1 in that column, its right part the
vector that is 0 but for -1 there. The column counter runs through the tree from left
to right, so no two conjunctions share a column.
-/

namespace AttributeEncryption.Formula

/-- The labelled rows of a formula that was handed `vector`, and the next unused column,
where `next` is the next unused column before it. -/
def label {α : Type} (vector : List Int32) (next : Nat) :
    Formula α → List (α × List Int32) × Nat
  | leaf a => ([(a, vector)], next)
  | or l r =>
    let (left, next) := l.label vector next
    let (right, next) := r.label vector next
    (left ++ right, next)
  | and l r =>
    let column := next
    let (left, next) := l.label (resize column vector ++ [1]) (column + 1)
    let (right, next) := r.label (List.replicate column 0 ++ [-1]) next
    (left ++ right, next)

/-- The matrix of an access tree. -/
def compile (tree : AccessTree) : Except Failure ShareMatrix := do
  let builder ← MatrixBuilder.empty.addAll (tree.label [1] 1).1
  builder.finish

end AttributeEncryption.Formula
