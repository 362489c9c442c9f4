import AttributeEncryption.Sharing.Weights
import AttributeEncryption.Sharing.Matrix
import Mathlib.Algebra.BigOperators.Field
import Mathlib.Algebra.BigOperators.Fin
import Mathlib.Algebra.BigOperators.Pi
import Mathlib.Algebra.Field.Rat
import Mathlib.Data.List.GetD
import Mathlib.Data.Rat.Cast.CharZero
import Mathlib.LinearAlgebra.Pi
import Mathlib.LinearAlgebra.Span.Basic
import Mathlib.Tactic.Ring

/-!
# Combinations of rows

Integer combinations of the rows of a matrix (`weightedSum`) and the rational span of the
rows that are available (`availableSpan`). The two meet in `Reachable` : a multiple of the
target `(1, 0, …, 0)` other than 0 is an integer combination of available rows. That is so
exactly when the target is in the span (`reachable_iff`), since denominators can be cleared
(`exists_multiple_of_mem_availableSpan`).
-/

namespace AttributeEncryption

/-! ## Sums and spans of rows -/

/-- The entries of a row as integers. Missing entries are 0. -/
def rowEntries (row : List Int32) (j : ℕ) : ℤ :=
  (row.getD j 0).toInt

/-- An entry of the weighted sum of some rows. -/
def weightedSum (weights : List ℤ) (rows : List (List Int32)) (j : ℕ) : ℤ :=
  (List.zipWith (fun w row => w * rowEntries row j) weights rows).sum

@[simp] theorem weightedSum_nil_left (rows : List (List Int32)) (j : ℕ) :
    weightedSum [] rows j = 0 :=
  rfl

@[simp] theorem weightedSum_nil_right (weights : List ℤ) (j : ℕ) :
    weightedSum weights [] j = 0 := by
  simp [weightedSum]

@[simp] theorem weightedSum_cons (w : ℤ) (weights : List ℤ) (row : List Int32)
    (rows : List (List Int32)) (j : ℕ) : weightedSum (w :: weights) (row :: rows) j =
      w * rowEntries row j + weightedSum weights rows j :=
  rfl

theorem weightedSum_eq_sum (j : ℕ) :
    ∀ {weights : List ℤ} {rows : List (List Int32)}, weights.length = rows.length →
      weightedSum weights rows j =
        ∑ i : Fin rows.length, weights.getD i 0 * rowEntries rows[i] j
  | [], [], _ => rfl
  | w :: weights, row :: rows, h => by
    rw [weightedSum_cons, weightedSum_eq_sum j (by simpa using h)]
    exact (Fin.sum_univ_succ fun i : Fin (rows.length + 1) =>
      (w :: weights).getD i 0 * rowEntries (row :: rows)[i] j).symm

/-- A row as a vector of rational numbers. -/
def rowVector (n : ℕ) (row : List Int32) : Fin n → ℚ :=
  fun j => (rowEntries row j : ℚ)

/-- The vector `(1, 0, …, 0)`. -/
def targetVector (n : ℕ) : Fin n → ℚ :=
  fun j => if (j : ℕ) = 0 then 1 else 0

/-- The rational span of the rows that are not in `unavailable`. -/
def availableSpan (rows : List (List Int32)) (unavailable : List ℕ) :
    Submodule ℚ (Fin (width rows) → ℚ) :=
  Submodule.span ℚ
    {v | ∃ i : Fin rows.length, (i : ℕ) ∉ unavailable ∧ v = rowVector (width rows) rows[i]}

/-- Some multiple of the target other than 0 is an integer combination of the available
rows. -/
def Reachable (rows : List (List Int32)) (unavailable : List ℕ) : Prop :=
  ∃ (d : ℤ) (values : List ℤ), d ≠ 0 ∧ values.length = rows.length ∧
    (∀ i ∈ unavailable, values.getD i 0 = 0) ∧
    ∀ j < width rows, weightedSum values rows j = if j = 0 then d else 0

section Span

variable {rows : List (List Int32)} {unavailable : List ℕ}

theorem mem_availableSpan_of_reachable (h : Reachable rows unavailable) :
    targetVector (width rows) ∈ availableSpan rows unavailable := by
  obtain ⟨d, values, hd, hlength, hunavailable, hsum⟩ := h
  have hd' : (d : ℚ) ≠ 0 := by exact_mod_cast hd
  have htarget : targetVector (width rows) =
      ∑ i : Fin rows.length, ((values.getD i 0 : ℚ) / d) • rowVector (width rows) rows[i] := by
    ext j
    have hj := congrArg (Int.cast : ℤ → ℚ) (hsum j j.isLt)
    rw [weightedSum_eq_sum _ hlength] at hj
    push_cast at hj
    simp only [Finset.sum_apply, Pi.smul_apply, smul_eq_mul, rowVector, targetVector,
      div_mul_eq_mul_div, ← Finset.sum_div, hj]
    split_ifs <;> simp [hd']
  rw [htarget]
  refine Submodule.sum_mem _ fun i _ => ?_
  by_cases hi : (i : ℕ) ∈ unavailable
  · rw [hunavailable i hi, Int.cast_zero, zero_div, zero_smul]
    exact Submodule.zero_mem _
  · exact Submodule.smul_mem _ _ (Submodule.subset_span ⟨i, hi, rfl⟩)

/-- Clearing denominators : every vector of the span has a multiple that is an integer
combination of the available rows. -/
theorem exists_multiple_of_mem_availableSpan {v : Fin (width rows) → ℚ}
    (h : v ∈ availableSpan rows unavailable) :
    ∃ (d : ℤ) (c : Fin rows.length → ℤ), d ≠ 0 ∧
      (∀ i : Fin rows.length, (i : ℕ) ∈ unavailable → c i = 0) ∧
      ∀ j : Fin (width rows), (∑ i, c i * rowEntries rows[i] j : ℤ) = (d : ℚ) * v j := by
  induction h using Submodule.span_induction with
  | mem v hv =>
    obtain ⟨i, hi, rfl⟩ := hv
    refine ⟨1, Pi.single i 1, one_ne_zero, fun k hk => ?_, fun j => ?_⟩
    · have hne : k ≠ i := fun h => hi (h ▸ hk)
      exact Pi.single_eq_of_ne hne _
    · simp [Pi.single_apply, rowVector]
  | zero => exact ⟨1, 0, one_ne_zero, by simp, by simp⟩
  | add v v' _ _ hv hv' =>
    obtain ⟨d, c, hd, hc, hsum⟩ := hv
    obtain ⟨d', c', hd', hc', hsum'⟩ := hv'
    refine ⟨d * d', d' • c + d • c', mul_ne_zero hd hd', fun i hi => ?_, fun j => ?_⟩
    · simp [hc i hi, hc' i hi]
    · have h := hsum j
      have h' := hsum' j
      push_cast at h h' ⊢
      simp only [Pi.add_apply, Pi.smul_apply, smul_eq_mul, add_mul, mul_assoc,
        Finset.sum_add_distrib, ← Finset.mul_sum, h, h', Int.cast_add, Int.cast_mul]
      ring
  | smul q v _ hv =>
    obtain ⟨d, c, hd, hc, hsum⟩ := hv
    refine ⟨d * q.den, q.num • c, mul_ne_zero hd (by simp), fun i hi => ?_, fun j => ?_⟩
    · simp [hc i hi]
    · have h := hsum j
      push_cast at h ⊢
      simp only [Pi.smul_apply, smul_eq_mul, mul_assoc, ← Finset.mul_sum, h, Int.cast_mul]
      rw [mul_left_comm, ← mul_assoc (q.den : ℚ), Rat.den_mul_eq_num]

theorem reachable_of_mem_availableSpan
    (h : targetVector (width rows) ∈ availableSpan rows unavailable) :
    Reachable rows unavailable := by
  obtain ⟨d, c, hd, hc, hsum⟩ := exists_multiple_of_mem_availableSpan h
  refine ⟨d, List.ofFn c, hd, by simp, fun i hi => ?_, fun j hj => ?_⟩
  · by_cases hlt : i < rows.length
    · simpa [List.getD_eq_getElem?_getD, hlt] using hc ⟨i, hlt⟩ hi
    · simp [List.getD_eq_getElem?_getD, hlt]
  · rw [weightedSum_eq_sum _ (by simp)]
    have h := hsum ⟨j, hj⟩
    simp only [targetVector, mul_ite, mul_one, mul_zero] at h
    have h' : ∑ i : Fin rows.length, c i * rowEntries rows[i] j = if j = 0 then d else 0 := by
      split_ifs at h ⊢ <;> exact_mod_cast h
    simpa [List.getD_eq_getElem?_getD] using h'

theorem reachable_iff : Reachable rows unavailable ↔
    targetVector (width rows) ∈ availableSpan rows unavailable :=
  ⟨mem_availableSpan_of_reachable, reachable_of_mem_availableSpan⟩

end Span

end AttributeEncryption
