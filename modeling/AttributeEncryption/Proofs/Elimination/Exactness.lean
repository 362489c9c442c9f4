import AttributeEncryption.Proofs.Elimination.Echelon
import AttributeEncryption.Proofs.Elimination.Span

/-!
# Exactness of reconstruction weights

For any rectangular matrix of 32-bit entries and any set of unavailable rows,
`reconstructionWeights` reports an overflow or gives weights in normal form : a positive
scale, no common divisor, 0 for unavailable rows. The weighted sum of the rows is then
`(scale, 0, …, 0)` exactly when `(1, 0, …, 0)` is in the rational span of the available
rows (`reconstructionWeights_exact`). Sums and spans are those of integers and rationals;
that every number on the way fits into 64 bits is part of the statement (`FittingRun`).
-/

namespace AttributeEncryption

/-! ## The system of a matrix -/

namespace Elimination

/-- The equation of a column of the matrix. -/
def columnEquation (available : List Bool) (rows : List (List Int32)) (j : ℕ) : Equation :=
  ⟨List.zipWith (fun a row => if a then rowEntries row j else 0) available rows,
    if j = 0 then 1 else 0⟩

theorem transpose_eq (n : ℕ) (rows : List (List ℤ)) :
    transpose n rows = (List.range n).map fun j => rows.map (·.getD j 0) := by
  induction n generalizing rows with
  | zero => rfl
  | succ n ih =>
    rw [transpose, ih, List.range_succ_eq_map, List.map_cons, List.map_map]
    congr 1
    · exact List.map_congr_left fun row _ => by cases row <;> rfl
    · refine List.map_congr_left fun j _ => ?_
      rw [List.map_map]
      exact List.map_congr_left fun row _ => by cases row <;> simp

/-- The system has one equation for each column. -/
theorem system_eq (columns : ℕ) (available : List Bool) (rows : List (List Int32)) :
    system columns available rows = (List.range columns).map (columnEquation available rows) := by
  have hcoefficients (j : ℕ) : (List.zipWith contribution available rows).map (·.getD j 0) =
      (columnEquation available rows j).coefficients := by
    rw [columnEquation, List.map_zipWith]
    congr 1
    funext a row
    simp only [contribution, rowEntries, List.getD_eq_getElem?_getD, List.getElem?_map]
    cases a <;> cases row[j]? <;> rfl
  unfold system
  rw [transpose_eq]
  cases columns with
  | zero => rfl
  | succ n =>
    rw [List.range_succ_eq_map]
    simp only [List.map_cons, List.map_map, hcoefficients]
    rfl

theorem mem_system {columns : ℕ} {available : List Bool} {rows : List (List Int32)}
    {e : Equation} : e ∈ system columns available rows ↔
      ∃ j < columns, columnEquation available rows j = e := by
  simp [system_eq]

theorem columnEquation_fits (available : List Bool) (rows : List (List Int32)) (j : ℕ) :
    (columnEquation available rows j).Fits := by
  have hentry (n : Int32) : InWord n.toInt := by
    have := n.le_toInt
    have := n.toInt_lt
    unfold InWord leastWord greatestWord
    omega
  refine ⟨?_, fun c hc => ?_⟩
  · rw [columnEquation]
    split_ifs
    · exact (by decide : InWord 1)
    · exact (by decide : InWord 0)
  · obtain ⟨i, hi, rfl⟩ := List.getElem_of_mem hc
    simp only [columnEquation, List.getElem_zipWith]
    split_ifs
    · exact hentry _
    · decide

theorem columnEquation_respects {available : List Bool} {rows : List (List Int32)}
    (h : available.length = rows.length) (j : ℕ) :
    (columnEquation available rows j).Respects available := by
  unfold Equation.Respects Vanishes columnEquation
  simp only
  induction available generalizing rows with
  | nil => simp
  | cons a available ih =>
    cases rows with
    | nil => simp at h
    | cons row rows => exact List.Forall₂.cons (fun ha => by simp [ha]) (ih (by simpa using h))

/-- The residual of a column is what the weighted sum of the rows lacks there. -/
theorem residual_columnEquation {available : List Bool} {values : List ℤ}
    (h : Vanishes available values)
    (rows : List (List Int32)) (scale : ℤ) (j : ℕ) :
    (columnEquation available rows j).residual scale values =
      (if j = 0 then scale else 0) - weightedSum values rows j := by
  have hsum : sumProduct (columnEquation available rows j).coefficients values =
      weightedSum values rows j := by
    unfold columnEquation
    simp only
    induction h generalizing rows with
    | nil => simp
    | @cons a c available values hac _ ih =>
      cases rows with
      | nil => simp
      | cons row rows =>
        rw [List.zipWith_cons_cons, sumProduct_cons, ih, weightedSum_cons]
        cases a
        · simp [hac rfl]
        · rw [if_pos rfl, mul_comm]
  rw [Equation.residual, hsum, columnEquation, mul_ite, mul_one, mul_zero]

/-- Zeros at the unavailable rows, row by row and by number. -/
theorem vanishes_availability_iff {n : ℕ} {unavailable : List ℕ} {values : List ℤ} :
    Vanishes (availability n unavailable) values ↔
      values.length = n ∧ ∀ i ∈ unavailable, values.getD i 0 = 0 := by
  unfold Vanishes availability
  rw [List.forall₂_map_left_iff, List.forall₂_iff_get]
  simp only [List.length_range, List.get_eq_getElem, List.getElem_range, Bool.not_eq_false',
    List.contains_iff_mem]
  refine ⟨fun ⟨hlength, h⟩ => ⟨hlength.symm, fun i hi => ?_⟩,
    fun ⟨hlength, h⟩ => ⟨hlength.symm, fun i _ hi hmem => ?_⟩⟩
  · by_cases hlt : i < values.length
    · rw [List.getD_eq_getElem _ _ hlt]
      exact h i (hlength ▸ hlt) hlt hi
    · rw [List.getD_eq_default _ _ (not_lt.mp hlt)]
  · rw [← List.getD_eq_getElem _ 0 hi]
    exact h i hmem

/-! ## Normal form -/

end Elimination

namespace Weights

/-- The weights and the scale multiplied by a number. -/
def times (w : Weights) (factor : ℤ) : Weights :=
  ⟨w.coefficients.map (· * factor), w.scale * factor⟩

@[simp] theorem residual_times (w : Weights) (k : ℤ) (e : Elimination.Equation) :
    e.residual (w.times k).scale (w.times k).coefficients = k * e.residual w.scale w.coefficients :=
  e.residual_map_mul k w.scale w.coefficients

/-- Multiples of the weights by numbers other than 0 agree. -/
def Proportional (w w' : Weights) : Prop :=
  ∃ k l : ℤ, k ≠ 0 ∧ l ≠ 0 ∧ w.times k = w'.times l

/-- Proportional weights solve the same equations. -/
theorem Proportional.residual_eq_zero_iff {w w' : Weights} (h : w.Proportional w')
    (e : Elimination.Equation) :
    e.residual w.scale w.coefficients = 0 ↔ e.residual w'.scale w'.coefficients = 0 := by
  obtain ⟨k, l, hk, hl, heq⟩ := h
  rw [← mul_eq_zero_iff_left hk, ← residual_times, heq, residual_times, mul_eq_zero_iff_left hl]

theorem Proportional.vanishes_iff {w w' : Weights} (h : w.Proportional w') (available : List Bool) :
    Elimination.Vanishes available w.coefficients ↔
      Elimination.Vanishes available w'.coefficients := by
  obtain ⟨k, l, hk, hl, heq⟩ := h
  have hmap : w.coefficients.map (· * k) = w'.coefficients.map (· * l) :=
    congrArg Weights.coefficients heq
  rw [← Elimination.vanishes_map_mul_iff hk, hmap, Elimination.vanishes_map_mul_iff hl]

/-- No number other than 1 divides the scale and all weights. -/
def Coprime (w : Weights) : Prop :=
  ∀ d : ℕ, (d : ℤ) ∣ w.scale → (∀ c ∈ w.coefficients, (d : ℤ) ∣ c) → d = 1

end Weights

namespace Elimination

theorem overflowOr_makePositive {w : Weights} (hscale : w.scale ≠ 0) (hfits : w.Fits) :
    OverflowOr (fun w' => 0 < w'.scale ∧ (∃ k, k ≠ 0 ∧ w' = w.times k) ∧ w'.Fits)
      (makePositive w) := by
  unfold makePositive
  split_ifs with hneg
  · refine (overflowOr_checked (-w.scale)).bind fun scale hs => ?_
    refine (overflowOr_mapM (fun c => overflowOr_checked (-c)) w.coefficients).bind fun cs hcs => ?_
    obtain ⟨rfl, hs⟩ := hs
    obtain ⟨rfl, hcs⟩ := hcs
    refine ⟨neg_pos.mpr hneg, ⟨-1, by decide, ?_⟩, hs, hcs⟩
    simp [Weights.times]
  · refine ⟨lt_of_le_of_ne (not_lt.mp hneg) hscale.symm, ⟨1, one_ne_zero, ?_⟩, hfits⟩
    simp [Weights.times]

/-- The common divisor divides the scale and all weights. -/
theorem commonDivisor_dvd (w : Weights) :
    commonDivisor w ∣ w.scale.natAbs ∧ ∀ c ∈ w.coefficients, commonDivisor w ∣ c.natAbs := by
  have hfold (cs : List ℤ) (g : ℕ) : cs.foldl (fun g c => g.gcd c.natAbs) g ∣ g ∧
      ∀ c ∈ cs, cs.foldl (fun g c => g.gcd c.natAbs) g ∣ c.natAbs := by
    induction cs generalizing g with
    | nil => simp
    | cons c cs ih =>
      obtain ⟨hg, hcs⟩ := ih (g.gcd c.natAbs)
      exact ⟨hg.trans (Nat.gcd_dvd_left _ _),
        List.forall_mem_cons.mpr ⟨hg.trans (Nat.gcd_dvd_right _ _), hcs⟩⟩
  exact hfold w.coefficients w.scale.natAbs

/-- What divides the scale and all weights divides the common divisor. -/
theorem dvd_commonDivisor {d : ℕ} {w : Weights} (hscale : d ∣ w.scale.natAbs)
    (hcs : ∀ c ∈ w.coefficients, d ∣ c.natAbs) : d ∣ commonDivisor w := by
  have hfold (cs : List ℤ) (g : ℕ) (hg : d ∣ g) (hcs : ∀ c ∈ cs, d ∣ c.natAbs) :
      d ∣ cs.foldl (fun g c => g.gcd c.natAbs) g := by
    induction cs generalizing g with
    | nil => exact hg
    | cons c cs ih =>
      obtain ⟨hc, hcs⟩ := List.forall_mem_cons.mp hcs
      exact ih (g.gcd c.natAbs) (Nat.dvd_gcd hg hc) hcs
  exact hfold w.coefficients w.scale.natAbs hscale hcs

/-- The common divisor of weights with a positive scale is positive and not above the
scale. -/
theorem commonDivisor_pos {w : Weights} (h : 0 < w.scale) :
    0 < commonDivisor w ∧ (commonDivisor w : ℤ) ≤ w.scale := by
  have hdvd := (commonDivisor_dvd w).1
  have hpos : 0 < w.scale.natAbs := Int.natAbs_pos.mpr h.ne'
  have hle : commonDivisor w ≤ w.scale.natAbs := Nat.le_of_dvd hpos hdvd
  exact ⟨Nat.pos_of_dvd_of_pos hdvd hpos, by omega⟩

/-- Taking out the common divisor loses nothing. -/
theorem times_takeOutDivisor {w : Weights} (h : 0 < w.scale) :
    (takeOutDivisor w).times (commonDivisor w) = w := by
  obtain ⟨hscale, hcs⟩ := commonDivisor_dvd w
  unfold takeOutDivisor
  simp only
  split_ifs with hle
  · have hone : (commonDivisor w : ℤ) = 1 := by
      have := (commonDivisor_pos h).1
      omega
    simp [hone, Weights.times]
  · have hmap : (w.coefficients.map (·.tdiv (commonDivisor w))).map (· * (commonDivisor w : ℤ)) =
        w.coefficients := by
      rw [List.map_map]
      refine (List.map_congr_left fun c hc => ?_).trans (List.map_id _)
      exact Int.tdiv_mul_cancel (Int.natCast_dvd.mpr (hcs c hc))
    simp only [Weights.times, hmap, Int.tdiv_mul_cancel (Int.natCast_dvd.mpr hscale)]

theorem coprime_takeOutDivisor {w : Weights} (h : 0 < w.scale) : (takeOutDivisor w).Coprime := by
  intro d hd hds
  have hscale : (takeOutDivisor w).scale * commonDivisor w = w.scale :=
    congrArg Weights.scale (times_takeOutDivisor h)
  have hcs : (takeOutDivisor w).coefficients.map (· * (commonDivisor w : ℤ)) = w.coefficients :=
    congrArg Weights.coefficients (times_takeOutDivisor h)
  have hmul {c : ℤ} (hc : (d : ℤ) ∣ c) : d * commonDivisor w ∣ (c * commonDivisor w).natAbs := by
    rw [Int.natAbs_mul, Int.natAbs_natCast]
    exact Nat.mul_dvd_mul_right (Int.natCast_dvd.mp hc) _
  have hdvd : d * commonDivisor w ∣ commonDivisor w := by
    refine dvd_commonDivisor (hscale ▸ hmul hd) fun c hc => ?_
    rw [← hcs] at hc
    obtain ⟨c', hc', rfl⟩ := List.mem_map.mp hc
    exact hmul (hds c' hc')
  have hpos := (commonDivisor_pos h).1
  exact Nat.dvd_one.mp (Nat.dvd_of_mul_dvd_mul_right hpos (by simpa using hdvd))

theorem inWord_of_mul {n k : ℤ} (hk : 1 ≤ k) (h : InWord (n * k)) : InWord n := by
  unfold InWord leastWord greatestWord at *
  rcases le_total 0 n with hn | hn
  · have := le_mul_of_one_le_right hn hk
    omega
  · have := mul_le_of_one_le_right hn hk
    omega

theorem fits_takeOutDivisor {w : Weights} (h : 0 < w.scale) (hfits : w.Fits) :
    (takeOutDivisor w).Fits := by
  have hone : (1 : ℤ) ≤ commonDivisor w := by exact_mod_cast (commonDivisor_pos h).1
  rw [← times_takeOutDivisor h] at hfits
  exact ⟨inWord_of_mul hone hfits.1,
    fun c hc => inWord_of_mul hone (hfits.2 _ (List.mem_map_of_mem hc))⟩

/-! ## Reconstruction weights -/

/-- The run of the elimination that ended with the weights `w` : all numbers of all its
stages are in the 64-bit range, and so is the divisor that is taken out in the end. -/
def FittingRun (rows : List (List Int32)) (unavailable : List ℕ) (w : Weights) : Prop :=
  ∃ columns solved positive,
    let available := availability rows.length unavailable
    eliminate available (system (width rows) available rows) = .ok columns ∧
      (∀ column ∈ columns, column.Fits) ∧
    substitute columns = .ok solved ∧ solved.Fits ∧
    makePositive solved = .ok positive ∧ positive.Fits ∧
    InWord (commonDivisor positive) ∧
    takeOutDivisor positive = w ∧ w.times (commonDivisor positive) = positive ∧ w.Fits

end Elimination

open Elimination

variable {rows : List (List Int32)}

theorem reconstructionWeights_eq (unavailable : List ℕ) (hwidth : 0 < width rows)
    (hrectangular : ∀ row ∈ rows, row.length = width rows) :
    reconstructionWeights rows unavailable = (do
      let available := availability rows.length unavailable
      let columns ← eliminate available (system (width rows) available rows)
      let solved ← substitute columns
      let positive ← makePositive solved
      return takeOutDivisor positive) := by
  have hempty : rows.isEmpty = false := by
    cases rows with
    | nil => simp [width] at hwidth
    | cons => rfl
  unfold reconstructionWeights
  rw [hempty, firstRagged_eq_none_iff.mpr hrectangular]
  rfl

/-- What the weights of a matrix are, whichever they are. -/
structure Reconstruction (rows : List (List Int32)) (unavailable : List ℕ) (w : Weights) :
    Prop where
  length_eq : w.coefficients.length = rows.length
  zero_of_mem : ∀ i ∈ unavailable, w.coefficient i = 0
  scale_pos : 1 ≤ w.scale
  coprime : w.Coprime
  run : FittingRun rows unavailable w
  sum_eq : Reachable rows unavailable →
    ∀ j < width rows, weightedSum w.coefficients rows j = if j = 0 then w.scale else 0

/-- The weighted sum is a multiple of the target exactly when one can be reached. -/
theorem Reconstruction.sum_eq_iff {unavailable : List ℕ} {w : Weights}
    (h : Reconstruction rows unavailable w) :
    (∀ j < width rows, weightedSum w.coefficients rows j = if j = 0 then w.scale else 0) ↔
      Reachable rows unavailable := by
  have hne : w.scale ≠ 0 := by linarith [h.scale_pos]
  exact ⟨fun hsum => ⟨w.scale, w.coefficients, hne, h.length_eq, h.zero_of_mem, hsum⟩, h.sum_eq⟩

/-- If a multiple of the target can be reached, what solves the columns of the system
solves the system. -/
theorem residual_eq_zero_of_reachable {unavailable : List ℕ} {columns : List Column}
    (h : Echelon (availability rows.length unavailable)
      (system (width rows) (availability rows.length unavailable) rows) columns)
    (hreachable : Reachable rows unavailable) {scale : ℤ} {values : List ℤ}
    (hsolves : Solves scale columns values) {j : ℕ} (hj : j < width rows) :
    (columnEquation (availability rows.length unavailable) rows j).residual scale values = 0 := by
  obtain ⟨d, solution, hd, hlength, hzero, hsum⟩ := hreachable
  have havailable : (availability rows.length unavailable).length = rows.length := by
    simp [availability]
  refine h.residual_eq_zero hd (hlength.trans havailable.symm) (fun e he => ?_) (fun e he => ?_)
    hsolves _ (mem_system.mpr ⟨j, hj, rfl⟩)
  · obtain ⟨i, hi, rfl⟩ := mem_system.mp he
    have hvanishes := vanishes_availability_iff.mpr ⟨hlength, hzero⟩
    rw [residual_columnEquation hvanishes, hsum i hi, sub_self]
  · obtain ⟨i, -, rfl⟩ := mem_system.mp he
    exact columnEquation_respects havailable i

/-- The weights of a rectangular matrix are a reconstruction, or there was an overflow. -/
theorem overflowOr_reconstructionWeights (unavailable : List ℕ) (hwidth : 0 < width rows)
    (hrectangular : ∀ row ∈ rows, row.length = width rows) :
    OverflowOr (Reconstruction rows unavailable) (reconstructionWeights rows unavailable) := by
  rw [reconstructionWeights_eq unavailable hwidth hrectangular]
  have hrespects : ∀ e ∈ system (width rows) (availability rows.length unavailable) rows,
      e.Respects (availability rows.length unavailable) ∧ e.Fits := by
    intro e he
    obtain ⟨j, -, rfl⟩ := mem_system.mp he
    exact ⟨columnEquation_respects (by simp [availability]) j, columnEquation_fits _ _ _⟩
  refine (overflowOr_eliminate fun e he => (hrespects e he).1).self.bind fun columns hcolumns => ?_
  obtain ⟨hcolumns, hechelon⟩ := hcolumns
  refine (overflowOr_substitute hechelon.forall₂_of).self.bind fun solved hsolved => ?_
  obtain ⟨hsolved, hsolves, hscale, hzero, hfits⟩ := hsolved
  refine (overflowOr_makePositive hscale hfits).self.bind fun positive hpositive => ?_
  obtain ⟨hpositive, hpos, ⟨k, hk, hmultiple⟩, hposfits⟩ := hpositive
  obtain ⟨hdivisor, hle⟩ := commonDivisor_pos hpos
  have htimes := times_takeOutDivisor hpos
  have hproportional : (takeOutDivisor positive).Proportional solved :=
    ⟨commonDivisor positive, k, by exact_mod_cast hdivisor.ne', hk, htimes.trans hmultiple⟩
  have hvanishes := (hproportional.vanishes_iff _).mpr hzero
  obtain ⟨hlength, hunavailable⟩ := vanishes_availability_iff.mp hvanishes
  have hscale_pos : 0 < (takeOutDivisor positive).scale := by
    have h : 0 < (takeOutDivisor positive).scale * commonDivisor positive := by
      rwa [← htimes] at hpos
    exact pos_of_mul_pos_left h (by positivity)
  refine
    { length_eq := hlength
      zero_of_mem := hunavailable
      scale_pos := hscale_pos
      coprime := coprime_takeOutDivisor hpos
      run := ⟨columns, solved, positive, hcolumns, hechelon.fits fun e he => (hrespects e he).2,
        hsolved, hfits, hpositive, hposfits, ⟨?_, hle.trans hposfits.1.2⟩, rfl, htimes,
        fits_takeOutDivisor hpos hposfits⟩
      sum_eq := fun hreachable j hj => ?_ }
  · unfold leastWord
    omega
  · have hresidual := (hproportional.residual_eq_zero_iff _).mpr
      (residual_eq_zero_of_reachable hechelon hreachable hsolves hj)
    rw [residual_columnEquation hvanishes] at hresidual
    exact (sub_eq_zero.mp hresidual).symm

/-- For every rectangular matrix with an entry and every set of unavailable rows, the
reconstruction weights are refused for an overflow, or : there is one for each row, those
of unavailable rows are 0, the scale is positive, and no number divides them all. They
combine the rows to `(scale, 0, …, 0)` exactly when `(1, 0, …, 0)` is in the rational span
of the available rows. No number of the computation left the 64-bit range. -/
theorem reconstructionWeights_exact (unavailable : List ℕ) (hwidth : 0 < width rows)
    (hrectangular : ∀ row ∈ rows, row.length = width rows) :
    reconstructionWeights rows unavailable = .error .coefficientOverflow ∨
      ∃ w, reconstructionWeights rows unavailable = .ok w ∧
        w.coefficients.length = rows.length ∧
        (∀ i ∈ unavailable, w.coefficient i = 0) ∧
        1 ≤ w.scale ∧ w.Coprime ∧
        ((∀ j < width rows, weightedSum w.coefficients rows j = if j = 0 then w.scale else 0) ↔
          targetVector (width rows) ∈ availableSpan rows unavailable) ∧
        FittingRun rows unavailable w := by
  rcases (overflowOr_reconstructionWeights unavailable hwidth hrectangular).cases with
    h | ⟨w, hw, h⟩
  · exact Or.inl h
  · exact Or.inr ⟨w, hw, h.length_eq, h.zero_of_mem, h.scale_pos, h.coprime,
      h.sum_eq_iff.trans reachable_iff, h.run⟩

/-- Two rows with pivots other than 1 and -1 : the scale is 10, and the target is in their
span. -/
theorem mem_availableSpan_of_weights :
    reconstructionWeights [[2, 4], [3, 1]] [7] = .ok ⟨[-1, 4], 10⟩ ∧
      targetVector 2 ∈ availableSpan [[2, 4], [3, 1]] [7] := by
  have hrun : reconstructionWeights [[2, 4], [3, 1]] [7] = .ok ⟨[-1, 4], 10⟩ := by rfl
  refine ⟨hrun, ?_⟩
  rcases @reconstructionWeights_exact [[2, 4], [3, 1]] [7] (by decide) (by decide) with
    h | ⟨w, hw, -, -, -, -, hiff, -⟩
  · rw [hrun] at h
    cases h
  · obtain rfl : (⟨[-1, 4], 10⟩ : Weights) = w := Except.ok.inj (hrun.symm.trans hw)
    exact hiff.mp (by decide)

end AttributeEncryption
