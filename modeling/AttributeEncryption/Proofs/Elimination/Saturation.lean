import AttributeEncryption.Proofs.Elimination.Residual
import AttributeEncryption.Proofs.Elimination.Span

/-!
# Sums without saturation

`Weights.combine` replaces products and sums beyond the 64-bit range by the ends of the range :
a column of the combination is the `saturatedSum` of what the rows contribute to it
(`getD_combine`). As long as no product and no sum on the way is out of range, that is the
weighted sum (`saturatedSum_of_unsaturated`), and `Weights.reachesTarget` compares it to the
target. Weights that are small enough for the number of rows never leave the range
(`reachesTarget_iff`).
-/

namespace AttributeEncryption

open Elimination

theorem clampWord_of_inWord {n : ℤ} (h : InWord n) : clampWord n = n := by
  unfold InWord at h
  unfold clampWord
  omega

/-! ## Saturated sums -/

/-- A sum and one more term, both replaced by the nearer end of the 64-bit range where they are
outside of it. -/
def addSaturated (sum term : ℤ) : ℤ :=
  clampWord (sum + clampWord term)

/-- The saturated sum of some terms, the first one first. -/
def saturatedSum (terms : List ℤ) : ℤ :=
  terms.foldl addSaturated 0

/-- No term is outside of the 64-bit range, and no sum of the first of them is. -/
def Unsaturated (terms : List ℤ) : Prop :=
  (∀ t ∈ terms, InWord t) ∧ ∀ n ≤ terms.length, InWord (terms.take n).sum

instance (terms : List ℤ) : Decidable (Unsaturated terms) :=
  inferInstanceAs (Decidable (_ ∧ _))

theorem foldl_addSaturated :
    ∀ {terms : List ℤ} {start : ℤ}, (∀ t ∈ terms, InWord t) →
      (∀ n ≤ terms.length, InWord (start + (terms.take n).sum)) →
      terms.foldl addSaturated start = start + terms.sum
  | [], start, _, _ => by simp
  | t :: terms, start, hterms, hsums => by
    obtain ⟨ht, hterms⟩ := List.forall_mem_cons.mp hterms
    have hfirst : InWord (start + t) := by simpa using hsums 1 (by simp)
    have hstep : addSaturated start t = start + t := by
      rw [addSaturated, clampWord_of_inWord ht, clampWord_of_inWord hfirst]
    have hrest := @foldl_addSaturated terms (start + t) hterms fun n hn => by
      simpa [add_assoc] using hsums (n + 1) (by simpa using hn)
    rw [List.foldl_cons, hstep, hrest, List.sum_cons, add_assoc]

/-- In range, the saturated sum is the sum. -/
theorem saturatedSum_of_unsaturated {terms : List ℤ} (h : Unsaturated terms) :
    saturatedSum terms = terms.sum := by
  have hfold := @foldl_addSaturated terms 0 h.1 fun n hn => by simpa using h.2 n hn
  exact hfold.trans (zero_add _)

theorem abs_sum_le {bound : ℤ} :
    ∀ {terms : List ℤ}, (∀ t ∈ terms, |t| ≤ bound) → |terms.sum| ≤ terms.length * bound
  | [], _ => by simp
  | t :: terms, h => by
    obtain ⟨ht, hterms⟩ := List.forall_mem_cons.mp h
    have hrest := abs_sum_le hterms
    have hsum := abs_add_le t terms.sum
    rw [List.sum_cons, List.length_cons]
    push_cast
    linarith

/-- Small terms leave room for all sums of them. -/
theorem unsaturated_of_abs_le {terms : List ℤ} {bound : ℤ} (hbound : 0 ≤ bound)
    (h : ∀ t ∈ terms, |t| ≤ bound) (hroom : terms.length * bound ≤ greatestWord) :
    Unsaturated terms := by
  have htake (n : ℕ) : ((terms.take n).length : ℤ) * bound ≤ terms.length * bound :=
    mul_le_mul_of_nonneg_right (by exact_mod_cast List.length_take_le' n terms) hbound
  refine ⟨fun t ht => inWord_of_abs_le ?_, fun n _ => inWord_of_abs_le ?_⟩
  · have hlength : (1 : ℤ) ≤ terms.length := by exact_mod_cast List.length_pos_of_mem ht
    have hone := mul_le_mul_of_nonneg_right hlength hbound
    linarith [h t ht]
  · have hsum := abs_sum_le fun t (ht : t ∈ terms.take n) => h t (List.mem_of_mem_take ht)
    linarith [htake n]

/-! ## Columns of a combination -/

/-- What the rows contribute to a column of their weighted sum. -/
def columnTerms (weights : List ℤ) (rows : List (List Int32)) (j : ℕ) : List ℤ :=
  List.zipWith (fun w row => w * rowEntries row j) weights rows

theorem sum_columnTerms (weights : List ℤ) (rows : List (List Int32)) (j : ℕ) :
    (columnTerms weights rows j).sum = weightedSum weights rows j :=
  rfl

/-- Each row contributes one term at most. -/
theorem length_columnTerms_mul_le {bound : ℤ} (hbound : 0 ≤ bound) (weights : List ℤ)
    (rows : List (List Int32)) (j : ℕ) :
    ((columnTerms weights rows j).length : ℤ) * bound ≤ rows.length * bound := by
  have hlength : (columnTerms weights rows j).length ≤ rows.length := by
    rw [columnTerms, List.length_zipWith]
    exact min_le_right _ _
  exact mul_le_mul_of_nonneg_right (by exact_mod_cast hlength) hbound

/-- Rows with entries 0, 1 and -1 contribute no more than the weights. -/
theorem abs_columnTerms_le {bound : ℤ} {j : ℕ} :
    ∀ {weights : List ℤ} {rows : List (List Int32)}, (∀ c ∈ weights, |c| ≤ bound) →
      (∀ row ∈ rows, |rowEntries row j| ≤ 1) → ∀ t ∈ columnTerms weights rows j, |t| ≤ bound
  | [], rows, _, _ => by simp [columnTerms]
  | w :: weights, [], _, _ => by simp [columnTerms]
  | w :: weights, row :: rows, hweights, hrows => by
    obtain ⟨hw, hweights⟩ := List.forall_mem_cons.mp hweights
    obtain ⟨hrow, hrows⟩ := List.forall_mem_cons.mp hrows
    refine List.forall_mem_cons.mpr ⟨?_, abs_columnTerms_le hweights hrows⟩
    rw [abs_mul]
    exact (mul_le_of_le_one_right (abs_nonneg w) hrow).trans hw

theorem abs_weightedSum_le {bound : ℤ} {j : ℕ} (hbound : 0 ≤ bound) {weights : List ℤ}
    {rows : List (List Int32)} (hweights : ∀ c ∈ weights, |c| ≤ bound)
    (hrows : ∀ row ∈ rows, |rowEntries row j| ≤ 1) :
    |weightedSum weights rows j| ≤ rows.length * bound :=
  (abs_sum_le (abs_columnTerms_le hweights hrows)).trans
    (length_columnTerms_mul_le hbound weights rows j)

namespace Weights

/-- A scaled row is added entry by entry. -/
theorem getD_addScaled {weight : ℤ} :
    ∀ {sums : List ℤ} {row : List Int32}, sums.length = row.length →
      (addScaled weight sums row).length = row.length ∧ ∀ j,
        (addScaled weight sums row).getD j 0 =
          addSaturated (sums.getD j 0) (weight * rowEntries row j)
  | [], [], _ => by simp [addScaled, rowEntries, addSaturated, clampWord, leastWord, greatestWord]
  | sum :: sums, entry :: row, hlength => by
    obtain ⟨hlength', hrest⟩ := @getD_addScaled weight sums row (by simpa using hlength)
    refine ⟨by simp [addScaled, hlength'], fun j => ?_⟩
    cases j with
    | zero => rfl
    | succ j => exact hrest j

/-- Scaled rows are added one after the other, each column for itself. -/
theorem getD_foldl_addScaled {columns : ℕ} :
    ∀ {rows : List (List Int32)} {weights sums : List ℤ},
      (∀ row ∈ rows, row.length = columns) → sums.length = columns →
      let total := (rows.zip weights).foldl (fun sum (row, weight) => addScaled weight sum row) sums
      total.length = columns ∧
        ∀ j, total.getD j 0 = (columnTerms weights rows j).foldl addSaturated (sums.getD j 0)
  | [], weights, sums, _, hsums => by simp [columnTerms, hsums]
  | row :: rows, [], sums, _, hsums => by simp [columnTerms, hsums]
  | row :: rows, weight :: weights, sums, hwidth, hsums => by
    obtain ⟨hrow, hwidth⟩ := List.forall_mem_cons.mp hwidth
    obtain ⟨hstep, hstep'⟩ := @getD_addScaled weight sums row (hsums.trans hrow.symm)
    obtain ⟨htotal, htotal'⟩ := @getD_foldl_addScaled columns rows weights
      (addScaled weight sums row) hwidth (hstep.trans hrow)
    refine ⟨htotal, fun j => ?_⟩
    rw [columnTerms, List.zipWith_cons_cons, List.foldl_cons, ← hstep']
    exact htotal' j

variable {w : Weights} {rows : List (List Int32)}

/-- A column of the combination is the saturated sum of what the rows contribute to it. -/
theorem getD_combine (w : Weights) (hrectangular : ∀ row ∈ rows, row.length = width rows) :
    (w.combine rows).length = width rows ∧
      ∀ j, (w.combine rows).getD j 0 = saturatedSum (columnTerms w.coefficients rows j) := by
  have hhead : (rows.headD []).length = width rows := by cases rows <;> rfl
  have hzero (j : ℕ) : (List.replicate (width rows) (0 : ℤ)).getD j 0 = 0 := by
    rw [List.getD_eq_getElem?_getD, List.getElem?_getD_replicate_default_eq]
  have hfold := @getD_foldl_addScaled (width rows) rows w.coefficients
    (List.replicate (width rows) 0) hrectangular List.length_replicate
  simp only [hzero] at hfold
  unfold combine
  rw [hhead]
  exact hfold

/-- The weights reach the target if the saturated sums of the columns are `(scale, 0, …, 0)`. -/
theorem reachesTarget_iff_saturatedSum (hwidth : 0 < width rows)
    (hrectangular : ∀ row ∈ rows, row.length = width rows) :
    w.reachesTarget rows = true ↔ ∀ j < width rows,
      saturatedSum (columnTerms w.coefficients rows j) = if j = 0 then w.scale else 0 := by
  obtain ⟨hlength, hsum⟩ := w.getD_combine hrectangular
  unfold reachesTarget
  cases hcombine : w.combine rows with
  | nil =>
    rw [hcombine, List.length_nil] at hlength
    omega
  | cons first rest =>
    rw [hcombine, List.length_cons] at hlength
    simp only [hcombine] at hsum
    simp only [Bool.and_eq_true, beq_iff_eq, List.all_eq_true]
    refine ⟨fun ⟨hfirst, hrest⟩ j hj => ?_, fun h => ⟨?_, fun x hx => ?_⟩⟩
    · rw [← hsum j]
      cases j with
      | zero => simpa using hfirst
      | succ j =>
        have hlt : j < rest.length := by omega
        simpa [hlt] using hrest _ (List.getElem_mem hlt)
    · have h₀ := h 0 hwidth
      rw [← hsum 0] at h₀
      simpa using h₀
    · obtain ⟨i, hi, rfl⟩ := List.getElem_of_mem hx
      have h₁ := h (i + 1) (by omega)
      rw [← hsum (i + 1)] at h₁
      simpa [hi] using h₁

/-- If no column leaves the 64-bit range, the weights reach the target if the weighted sum of the
rows is `(scale, 0, …, 0)`. -/
theorem reachesTarget_iff_of_unsaturated (hwidth : 0 < width rows)
    (hrectangular : ∀ row ∈ rows, row.length = width rows)
    (hunsaturated : ∀ j < width rows, Unsaturated (columnTerms w.coefficients rows j)) :
    w.reachesTarget rows = true ↔
      ∀ j < width rows, weightedSum w.coefficients rows j = if j = 0 then w.scale else 0 := by
  rw [reachesTarget_iff_saturatedSum hwidth hrectangular]
  refine forall₂_congr fun j hj => ?_
  rw [saturatedSum_of_unsaturated (hunsaturated j hj), sum_columnTerms]

/-- Entries 0, 1 and -1 and weights that leave room for all rows keep every column in range. -/
theorem reachesTarget_iff {bound : ℤ} (hbound : 0 ≤ bound)
    (hwidth : 0 < width rows) (hrectangular : ∀ row ∈ rows, row.length = width rows)
    (hentries : ∀ row ∈ rows, ∀ j, |rowEntries row j| ≤ 1)
    (hw : ∀ c ∈ w.coefficients, |c| ≤ bound) (hroom : rows.length * bound ≤ greatestWord) :
    w.reachesTarget rows = true ↔
      ∀ j < width rows, weightedSum w.coefficients rows j = if j = 0 then w.scale else 0 := by
  refine reachesTarget_iff_of_unsaturated hwidth hrectangular fun j _ => ?_
  exact unsaturated_of_abs_le hbound (abs_columnTerms_le hw fun row hrow => hentries row hrow j)
    ((length_columnTerms_mul_le hbound _ _ _).trans hroom)

end Weights

end AttributeEncryption
