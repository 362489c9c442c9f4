import AttributeEncryption.Proofs.Elimination.Exactness
import AttributeEncryption.Proofs.Elimination.Saturation

/-!
# Verdicts on computed weights

The elimination reports every number outside of the 64-bit range. The verdict on its weights,
`Weights.reachesTarget`, multiplies them with the entries of the matrix again, and there such
numbers are replaced by the ends of the range. So the verdict is that of the integers as long as
no column leaves the range (`verdict_of_weights`). With large entries it may be wrong in both
directions (`saturation_changes_verdict`).
-/

namespace AttributeEncryption

variable {rows : List (List Int32)} {unavailable : List ℕ} {w : Weights}

/-- The verdict on computed weights is that of the saturated sums of the columns. If no product of
a weight with an entry and no sum of such products on the way is outside of the 64-bit range, then
the weights reach the target exactly if they combine the rows to `(scale, 0, …, 0)`, that is if
`(1, 0, …, 0)` is in the rational span of the available rows. -/
theorem verdict_of_weights (hwidth : 0 < width rows)
    (hrectangular : ∀ row ∈ rows, row.length = width rows)
    (hw : reconstructionWeights rows unavailable = .ok w) :
    (w.reachesTarget rows = true ↔ ∀ j < width rows,
      saturatedSum (columnTerms w.coefficients rows j) = if j = 0 then w.scale else 0) ∧
    ((∀ j < width rows, Unsaturated (columnTerms w.coefficients rows j)) →
      (w.reachesTarget rows = true ↔
        ∀ j < width rows, weightedSum w.coefficients rows j = if j = 0 then w.scale else 0) ∧
      (w.reachesTarget rows = true ↔
        targetVector (width rows) ∈ availableSpan rows unavailable)) := by
  have hreconstruction :=
    (overflowOr_reconstructionWeights unavailable hwidth hrectangular).of_eq_ok hw
  refine ⟨Weights.reachesTarget_iff_saturatedSum hwidth hrectangular, fun hunsaturated => ?_⟩
  have hsum := Weights.reachesTarget_iff_of_unsaturated hwidth hrectangular hunsaturated
  exact ⟨hsum, hsum.trans (hreconstruction.sum_eq_iff.trans reachable_iff)⟩

/-- Two rows whose columns come close to the ends of the range and do not leave it. -/
theorem verdict_of_great_rows :
    reconstructionWeights [[3, 2147483647], [1, -2147483648]] [] =
        .ok ⟨[2147483648, 2147483647], 8589934591⟩ ∧
      targetVector 2 ∈ availableSpan [[3, 2147483647], [1, -2147483648]] [] := by
  have hrun : reconstructionWeights [[3, 2147483647], [1, -2147483648]] [] =
      .ok ⟨[2147483648, 2147483647], 8589934591⟩ := by rfl
  obtain ⟨-, hverdict⟩ := @verdict_of_weights [[3, 2147483647], [1, -2147483648]] [] _
    (by decide) (by decide) hrun
  exact ⟨hrun, (hverdict (by decide)).2.mp (by decide)⟩

/-- Three rows that span the target. In the second column the first product is below the range
and the second one above it. -/
def spanningRows : List (List Int32) :=
  [[1, 32768], [32768, 1073741825], [1073741825, 0]]

/-- Four rows that do not span the target. In the last column the first product is above the
range. -/
def shortRows : List (List Int32) :=
  [[0, 1, 0, 0, 2], [0, 0, 1, 0, -2], [0, -2147483648, -2147483648, 1, 0],
    [1, 0, 0, -2147483648, 1]]

/-- With large entries, weights that reach the target may be taken for weights that do not, and
weights that miss it for weights that reach it. -/
theorem saturation_changes_verdict :
    (∃ w, reconstructionWeights spanningRows [] = .ok w ∧ w.reachesTarget spanningRows = false ∧
      (∀ j < width spanningRows,
        weightedSum w.coefficients spanningRows j = if j = 0 then w.scale else 0) ∧
      targetVector (width spanningRows) ∈ availableSpan spanningRows []) ∧
    ∃ w, reconstructionWeights shortRows [] = .ok w ∧ w.reachesTarget shortRows = true ∧
      (¬ ∀ j < width shortRows,
        weightedSum w.coefficients shortRows j = if j = 0 then w.scale else 0) ∧
      targetVector (width shortRows) ∉ availableSpan shortRows [] := by
  have hspanning : reconstructionWeights spanningRows [] =
      .ok ⟨[-1152921505680588800, 35184372088832, 1], 1⟩ := by rfl
  have hshort : reconstructionWeights shortRows [] =
      .ok ⟨[4611686018427387904, 4611686018427387904, 2147483648, 1], 1⟩ := by rfl
  have hspan := (overflowOr_reconstructionWeights [] (by decide) (by decide)).of_eq_ok hspanning
  have hmiss := (overflowOr_reconstructionWeights [] (by decide) (by decide)).of_eq_ok hshort
  have hsum : ∀ j < width spanningRows, weightedSum
      [-1152921505680588800, 35184372088832, 1] spanningRows j = if j = 0 then 1 else 0 := by
    decide
  have hsum' : ¬ ∀ j < width shortRows, weightedSum
      [4611686018427387904, 4611686018427387904, 2147483648, 1] shortRows j =
        if j = 0 then 1 else 0 := by
    decide
  refine ⟨⟨_, hspanning, by decide, hsum, ?_⟩, _, hshort, by decide, hsum', fun hmem => ?_⟩
  · exact (hspan.sum_eq_iff.trans reachable_iff).mp hsum
  · exact hsum' ((hmiss.sum_eq_iff.trans reachable_iff).mpr hmem)

end AttributeEncryption
