import AttributeEncryption.Proofs.Elimination.Exactness
import AttributeEncryption.Proofs.Elimination.Unimodular

/-!
# Elimination with unit pivots

A system of equations is regular if the vectors of its numbers are a unimodular set. The
elimination of a regular system has no pivots but 1 and -1, keeps the system regular, and
needs no multiplications, so back substitution never has to scale (`UnitRun`). Values grow
by 1 with each unknown that has no pivot at most, and with up to `2^32` unknowns there is no
overflow (`exists_unitRun`).

The system of a matrix is regular if the rows are unimodular together with the target. The
weights of such a matrix have scale 1 (`reconstructionWeights_of_unimodular`). Without
available rows no equation has an unknown, and all weights are 0 whatever the
matrix is (`reconstructionWeights_of_unavailable`).
-/

namespace AttributeEncryption

namespace Elimination

/-! ## Regular systems -/

namespace Equation

/-- The numbers of an equation as a vector, the right-hand side first. -/
def entries (e : Equation) : ℕ → ℤ
  | 0 => e.target
  | i + 1 => e.coefficients.getD i 0

theorem leading_eq_entries (e : Equation) : e.leading = e.entries 1 := by
  rcases e with ⟨_ | ⟨c, cs⟩, t⟩ <;> rfl

theorem entries_tail (e : Equation) :
    e.tail.entries = e.entries ∘ fun i => if i = 0 then 0 else i + 1 := by
  ext i
  rcases e with ⟨_ | ⟨c, cs⟩, t⟩ <;> cases i <;> simp [entries, tail]

theorem entries_minus {pivot e : Equation} (k : ℤ)
    (h : e.coefficients.length = pivot.coefficients.length) :
    (e.minus k pivot).entries = e.entries - k • pivot.entries := by
  ext i
  cases i with
  | zero => rfl
  | succ i =>
    simp only [entries, minus, Pi.sub_apply, Pi.smul_apply, smul_eq_mul,
      List.getD_eq_getElem?_getD, List.getElem?_zipWith]
    by_cases hi : i < e.coefficients.length
    · have hi' : i < pivot.coefficients.length := h ▸ hi
      simp [hi, hi']
    · have hi' : ¬ i < pivot.coefficients.length := h ▸ hi
      simp [hi, hi']

/-- The equation with its next unknown cleared by a pivot that is 1 or -1. -/
def cleared (pivot e : Equation) : Equation :=
  e.minus (e.leading * pivot.leading) pivot

end Equation

/-- All equations have the same unknowns, and their numbers form a unimodular set. -/
structure Regular (unknowns : ℕ) (equations : List Equation) : Prop where
  length_eq : ∀ e ∈ equations, e.coefficients.length = unknowns
  unimodular : Unimodular (Equation.entries '' {e | e ∈ equations})

namespace Regular

variable {n : ℕ} {equations : List Equation} {e pivot : Equation}

theorem subset (h : Regular n equations) (others : List Equation)
    (hsub : ∀ e ∈ others, e ∈ equations) : Regular n others where
  length_eq e he := h.length_eq e (hsub e he)
  unimodular := h.unimodular.mono (Set.image_mono hsub)

theorem abs_entries_le (h : Regular n equations) (he : e ∈ equations) (i : ℕ) :
    |e.entries i| ≤ 1 :=
  h.unimodular.abs_le_one (Set.mem_image_of_mem _ he) i

theorem abs_target_le (h : Regular n equations) (he : e ∈ equations) : |e.target| ≤ 1 :=
  h.abs_entries_le he 0

theorem abs_leading_le (h : Regular n equations) (he : e ∈ equations) : |e.leading| ≤ 1 := by
  rw [e.leading_eq_entries]
  exact h.abs_entries_le he 1

theorem abs_coefficient_le (h : Regular n equations) (he : e ∈ equations) :
    ∀ c ∈ e.coefficients, |c| ≤ 1 := by
  intro c hc
  obtain ⟨i, hi, rfl⟩ := List.getElem_of_mem hc
  have := h.abs_entries_le he (i + 1)
  simpa [Equation.entries, List.getD_eq_getElem?_getD, hi] using this

theorem tail (h : Regular (n + 1) equations) : Regular n (equations.map Equation.tail) where
  length_eq := by
    refine List.forall_mem_map.mpr fun e he => ?_
    simp [Equation.tail, h.length_eq e he]
  unimodular := by
    refine (h.unimodular.comp fun i => if i = 0 then 0 else i + 1).mono ?_
    rintro _ ⟨e', he', rfl⟩
    obtain ⟨e, he, rfl⟩ := List.mem_map.mp he'
    exact ⟨e.entries, ⟨e, he, rfl⟩, e.entries_tail.symm⟩

/-- Clearing the next unknown keeps a system regular. -/
theorem cleared (h : Regular n equations) (hmem : pivot ∈ equations) (hne : pivot.leading ≠ 0) :
    Regular n (pivot :: equations.map pivot.cleared) where
  length_eq := by
    refine List.forall_mem_cons.mpr ⟨h.length_eq _ hmem, List.forall_mem_map.mpr fun e he => ?_⟩
    simp [Equation.cleared, Equation.minus, h.length_eq e he, h.length_eq _ hmem]
  unimodular := by
    rw [pivot.leading_eq_entries] at hne
    refine (h.unimodular.clear (Set.mem_image_of_mem _ hmem) hne).mono ?_
    rintro _ ⟨e', he', rfl⟩
    rcases List.mem_cons.mp he' with rfl | he'
    · exact Set.mem_insert _ _
    · obtain ⟨e, he, rfl⟩ := List.mem_map.mp he'
      refine Set.mem_insert_of_mem _ ⟨e.entries, ⟨e, he, rfl⟩, ?_⟩
      have hlength := (h.length_eq e he).trans (h.length_eq _ hmem).symm
      rw [Equation.cleared, Equation.entries_minus _ hlength, e.leading_eq_entries,
        pivot.leading_eq_entries]

/-- The cleared system is regular without its next unknown. -/
theorem tail_cleared (h : Regular (n + 1) equations) (hmem : pivot ∈ equations)
    (hne : pivot.leading ≠ 0) {others : List Equation}
    (hothers : ∀ e ∈ others, e ∈ pivot :: equations.map pivot.cleared) :
    Regular n (others.map Equation.tail) :=
  ((h.cleared hmem hne).subset others hothers).tail

end Regular

/-! ## Operations without overflow -/

/-- A pivot that is 1 or -1 divides everything. -/
theorem exactQuotient_of_unit {n divisor : ℤ} (hdivisor : |divisor| ≤ 1) (hne : divisor ≠ 0)
    (h : |n| ≤ greatestWord) : exactQuotient n divisor = .ok (some (n * divisor)) := by
  have hword : InWord (n * divisor) := by
    refine inWord_of_abs_le ?_
    rw [abs_mul]
    exact (mul_le_of_le_one_right (abs_nonneg n) hdivisor).trans h
  have hexact : n.tmod divisor = 0 ∧ n.tdiv divisor = n * divisor := by
    have := abs_le.mp hdivisor
    obtain rfl | rfl : divisor = 1 ∨ divisor = -1 := by omega
    · simp
    · simp
  unfold exactQuotient
  rw [if_pos hexact.1, hexact.2, checked_of_inWord hword]
  rfl

theorem minusMultiple_eq_ok {k a b : ℤ} (hk : |k| ≤ 1) (ha : |a| ≤ 1) (hb : |b| ≤ 1) :
    Equation.minusMultiple k a b = .ok (a - k * b) := by
  have hproduct : |k * b| ≤ 1 := by
    rw [abs_mul]
    exact mul_le_one₀ hk (abs_nonneg b) hb
  have hdifference : |a - k * b| ≤ 2 := (abs_sub _ _).trans (by linarith)
  unfold Equation.minusMultiple
  rw [checked_of_inWord (inWord_of_abs_le (hproduct.trans (by decide)))]
  exact checked_of_inWord (inWord_of_abs_le (hdifference.trans (by decide)))

theorem cleared_of_leading_eq_zero {pivot e : Equation}
    (hlength : e.coefficients.length = pivot.coefficients.length) (h : e.leading = 0) :
    pivot.cleared e = e := by
  have hzip : List.zipWith (fun x y => x - 0 * y) e.coefficients pivot.coefficients =
      e.coefficients := by
    refine List.ext_getElem (by simp [hlength]) fun i hi hi' => ?_
    simp
  rw [Equation.cleared, h, zero_mul, Equation.minus, hzip, zero_mul, sub_zero]

/-- In a regular system, reducing by a pivot clears the next unknown. -/
theorem reduce_eq_ok {n : ℕ} {equations : List Equation} {pivot e : Equation}
    (h : Regular n equations) (hpivot : pivot ∈ equations) (he : e ∈ equations)
    (hne : pivot.leading ≠ 0) : pivot.reduce e = .ok (pivot.cleared e) := by
  have hlength := (h.length_eq e he).trans (h.length_eq _ hpivot).symm
  unfold Equation.reduce
  split_ifs with hleading
  · rw [cleared_of_leading_eq_zero hlength hleading]
    rfl
  · have hk : |e.leading * pivot.leading| ≤ 1 := by
      rw [abs_mul]
      exact mul_le_one₀ (h.abs_leading_le he) (abs_nonneg _) (h.abs_leading_le hpivot)
    rw [exactQuotient_of_unit (h.abs_leading_le hpivot) hne
      ((h.abs_leading_le he).trans (by decide))]
    change Equation.subtract (e.leading * pivot.leading) pivot e = _
    unfold Equation.subtract
    rw [mapM_eq_ok fun p hp => minusMultiple_eq_ok hk
        (h.abs_coefficient_le he _ (List.of_mem_zip hp).1)
        (h.abs_coefficient_le hpivot _ (List.of_mem_zip hp).2),
      minusMultiple_eq_ok hk (h.abs_target_le he) (h.abs_target_le hpivot),
      List.map_zip_eq_zipWith]
    rfl

/-- With coefficients 0, 1 and -1 a sum of products is no greater than the values together. -/
theorem abs_sumProduct_le :
    ∀ {a b : List ℤ}, (∀ x ∈ a, |x| ≤ 1) → |sumProduct a b| ≤ (b.map abs).sum
  | [], b, _ => by
    rw [sumProduct_nil_left, abs_zero]
    exact List.sum_nonneg (List.forall_mem_map.mpr fun y _ => abs_nonneg y)
  | x :: a, [], _ => by simp
  | x :: a, y :: b, ha => by
    obtain ⟨hx, ha⟩ := List.forall_mem_cons.mp ha
    have hproduct : |x * y| ≤ |y| := by
      rw [abs_mul]
      exact mul_le_of_le_one_left (abs_nonneg y) hx
    rw [sumProduct_cons, List.map_cons, List.sum_cons]
    exact (abs_add_le _ _).trans (add_le_add hproduct (abs_sumProduct_le ha))

/-- Terms with coefficients 0, 1 and -1 are subtracted without overflow if there is room for
all values together. -/
theorem remainder_eq_ok :
    ∀ {a b : List ℤ} {rest : ℤ}, (∀ x ∈ a, |x| ≤ 1) →
      |rest| + (b.map abs).sum ≤ greatestWord →
      remainder rest (a.zip b) = .ok (rest - sumProduct a b)
  | [], b, rest, _, _ => by simp [remainder]
  | x :: a, [], rest, _, _ => by simp [remainder]
  | x :: a, y :: b, rest, ha, hroom => by
    obtain ⟨hx, ha⟩ := List.forall_mem_cons.mp ha
    rw [List.map_cons, List.sum_cons] at hroom
    have hproduct : |x * y| ≤ |y| := by
      rw [abs_mul]
      exact mul_le_of_le_one_left (abs_nonneg y) hx
    have hnonneg : 0 ≤ (b.map abs).sum :=
      List.sum_nonneg (List.forall_mem_map.mpr fun y _ => abs_nonneg y)
    have hrest : |rest - x * y| + (b.map abs).sum ≤ greatestWord := by
      have := abs_sub rest (x * y)
      linarith
    rw [List.zip_cons_cons, remainder,
      checked_of_inWord (inWord_of_abs_le (by linarith [abs_nonneg rest])), ok_bind,
      checked_of_inWord (inWord_of_abs_le (by linarith)), ok_bind, remainder_eq_ok ha hrest,
      sumProduct_cons, sub_sub]

/-! ## Runs with unit pivots -/

theorem leading_mul_self {n : ℕ} {equations : List Equation} {pivot : Equation}
    (h : Regular n equations) (hmem : pivot ∈ equations) (hne : pivot.leading ≠ 0) :
    pivot.leading * pivot.leading = 1 := by
  have habs : |pivot.leading| = 1 := le_antisymm (h.abs_leading_le hmem) (Int.one_le_abs hne)
  rw [← abs_mul_abs_self, habs, one_mul]

/-- The value that a pivot gives to its unknown solves its equation. -/
theorem residual_pivot_eq_zero {pivot : Equation} (hunit : pivot.leading * pivot.leading = 1)
    (values : List ℤ) :
    pivot.residual 1 (pivot.tail.residual 1 values * pivot.leading :: values) = 0 := by
  rw [Equation.residual_cons, mul_left_comm, hunit, mul_one, sub_self]

/-- Once a pivot is solved, clearing does not change residuals, and the next unknown does
not matter any more. -/
theorem residual_cleared {pivot e : Equation} {value : ℤ} {values : List ℤ}
    (hlength : e.coefficients.length = pivot.coefficients.length)
    (hunit : pivot.leading * pivot.leading = 1)
    (hsolved : pivot.residual 1 (value :: values) = 0) :
    e.residual 1 (value :: values) = (pivot.cleared e).tail.residual 1 values := by
  have hleading : (pivot.cleared e).leading = 0 := by
    rw [Equation.leading_eq_entries, Equation.cleared, Equation.entries_minus _ hlength]
    simp only [Pi.sub_apply, Pi.smul_apply, smul_eq_mul, ← Equation.leading_eq_entries]
    rw [mul_assoc, hunit, mul_one, sub_self]
  have hcleared : (pivot.cleared e).residual 1 (value :: values) =
      e.residual 1 (value :: values) := by
    rw [Equation.cleared, Equation.residual_minus _ hlength, hsolved, mul_zero, sub_zero]
  rw [← hcleared, Equation.residual_cons, hleading, zero_mul, sub_zero]

/-- Back substitution of a pivot that is 1 or -1 neither scales nor overflows. -/
theorem substitute_pivot_eq_ok {columns : List Column} {w : Weights} {pivot : Equation}
    (h : substitute columns = .ok w) (hscale : w.scale = 1)
    (hroom : 1 + (w.coefficients.map abs).sum ≤ greatestWord) (hleading : |pivot.leading| ≤ 1)
    (hne : pivot.leading ≠ 0) (htarget : |pivot.target| ≤ 1)
    (hcoefficients : ∀ c ∈ pivot.tail.coefficients, |c| ≤ 1) :
    substitute (.pivot pivot.leading pivot.tail.coefficients pivot.target :: columns) =
      .ok ⟨pivot.tail.residual 1 w.coefficients * pivot.leading :: w.coefficients, 1⟩ := by
  have htarget' : |1 * pivot.target| ≤ 1 := by rwa [one_mul]
  have hresidual : 1 * pivot.target - sumProduct pivot.tail.coefficients w.coefficients =
      pivot.tail.residual 1 w.coefficients := rfl
  have hvalue : |pivot.tail.residual 1 w.coefficients| ≤ greatestWord := by
    rw [← hresidual]
    have hsum := @abs_sumProduct_le _ w.coefficients hcoefficients
    exact (abs_sub _ _).trans (by linarith)
  rw [substitute, h, ok_bind, hscale,
    checked_of_inWord (inWord_of_abs_le (htarget'.trans (by decide))), ok_bind,
    remainder_eq_ok hcoefficients (by linarith), ok_bind, hresidual,
    exactQuotient_of_unit hleading hne hvalue, ok_bind]
  rfl

/-- The elimination of the equations ends with the weights `w` of scale 1. Only the `free`
unknowns without a pivot let residuals grow, by 1 each, so the values of all pivots together
are no greater than their number times `free + 1`. -/
structure UnitRun (available : List Bool) (equations : List Equation) (free : ℕ) (w : Weights) :
    Prop where
  run : ∃ columns, eliminate available equations = .ok columns ∧ substitute columns = .ok w
  scale_eq : w.scale = 1
  free_le : free ≤ available.length
  abs_coefficient_le : ∀ c ∈ w.coefficients, |c| ≤ available.length
  sum_abs_le : (w.coefficients.map abs).sum ≤
    ((available.length : ℤ) - free) * (free + 1) + free
  abs_residual_le : ∀ e : Equation, Regular available.length (e :: equations) →
    |e.residual 1 w.coefficients| ≤ free + 1

namespace UnitRun

variable {a : Bool} {available : List Bool} {equations others : List Equation} {free : ℕ}
  {w : Weights}

theorem nil (equations : List Equation) : UnitRun [] equations 0 ⟨[], 1⟩ where
  run := ⟨[], rfl, rfl⟩
  scale_eq := rfl
  free_le := le_rfl
  abs_coefficient_le := by simp
  sum_abs_le := by simp
  abs_residual_le e h := by
    simpa [Equation.residual] using h.abs_target_le (e := e) (by simp)

/-- There is room for the values of up to `2^32` unknowns together : the product of two
numbers is no greater than the square of half their sum. -/
theorem room (h : UnitRun available equations free w) (hbound : available.length < 2 ^ 32) :
    1 + (w.coefficients.map abs).sum ≤ greatestWord := by
  have hlength : (available.length : ℤ) + 1 ≤ 2 ^ 32 := by exact_mod_cast hbound
  have hfree : (free : ℤ) ≤ available.length := by exact_mod_cast h.free_le
  have hproduct : 4 * (((available.length : ℤ) - free) * (free + 1)) ≤ (2 ^ 32) ^ 2 := by
    have hsquare : ((available.length : ℤ) + 1) ^ 2 ≤ (2 ^ 32) ^ 2 :=
      pow_le_pow_left₀ (by positivity) hlength 2
    linarith [sq_nonneg ((available.length : ℤ) - free - (free + 1))]
  have hsum := h.sum_abs_le
  unfold greatestWord
  omega

/-- The step for an unknown that no equation has. -/
theorem free_step (hnone : selectPivot equations = none)
    (h : UnitRun available (equations.map Equation.tail) free w) :
    UnitRun (a :: available) equations (free + 1)
      ⟨(if a then 1 else 0) :: w.coefficients, 1⟩ where
  run := by
    obtain ⟨columns, heliminate, hsubstitute⟩ := h.run
    refine ⟨.free a :: columns, ?_, ?_⟩
    · rw [eliminate, hnone]
      simp [heliminate]
    · simp [substitute, hsubstitute, h.scale_eq]
  scale_eq := rfl
  free_le := Nat.succ_le_succ h.free_le
  abs_coefficient_le := by
    rw [List.length_cons]
    push_cast
    refine List.forall_mem_cons.mpr ⟨?_, fun c hc => ?_⟩
    · cases a
      · simp
        omega
      · simp
    · have := h.abs_coefficient_le c hc
      omega
  sum_abs_le := by
    have hsum := h.sum_abs_le
    have hfree : (free : ℤ) ≤ available.length := by exact_mod_cast h.free_le
    have hvalue : |if a then (1 : ℤ) else 0| ≤ 1 := by cases a <;> simp
    rw [List.map_cons, List.sum_cons, List.length_cons]
    push_cast
    linarith
  abs_residual_le e hregular := by
    have htail := h.abs_residual_le e.tail hregular.tail
    have hleading := hregular.abs_leading_le (e := e) (by simp)
    rw [Equation.residual_cons]
    push_cast
    have hvalue : |e.leading * if a then 1 else 0| ≤ 1 := by cases a <;> simp [hleading]
    exact (abs_sub _ _).trans (by linarith)

/-- The step for an unknown that a pivot determines. -/
theorem pivot {π : Equation} (hsome : selectPivot equations = some (π, others))
    (hregular : Regular (available.length + 1) equations) (hbound : available.length < 2 ^ 32)
    (h : UnitRun available ((others.map π.cleared).map Equation.tail) free w) :
    UnitRun (a :: available) equations free
      ⟨π.tail.residual 1 w.coefficients * π.leading :: w.coefficients, 1⟩ := by
  obtain ⟨hne, hperm⟩ := selectPivot_eq_some hsome
  have hmem : π ∈ equations := hperm.subset (by simp)
  have hothers (e : Equation) (he : e ∈ others) : e ∈ equations := hperm.subset (by simp [he])
  have hleading := hregular.abs_leading_le hmem
  have hfree : (free : ℤ) ≤ available.length := by exact_mod_cast h.free_le
  -- what clearing leaves of a regular system that has the equations is regular
  have hcleared (system : List Equation) (hsystem : Regular (available.length + 1) system)
      (hsub : ∀ e ∈ equations, e ∈ system) (e : Equation)
      (he : e ∈ π :: system.map π.cleared) :
      Regular available.length (e.tail :: (others.map π.cleared).map Equation.tail) := by
    refine hsystem.tail_cleared (hsub _ hmem) hne (List.forall_mem_cons.mpr ⟨he, ?_⟩)
    refine List.forall_mem_map.mpr fun e' he' => ?_
    exact List.mem_cons_of_mem _ (List.mem_map_of_mem (hsub _ (hothers e' he')))
  have hrest := h.abs_residual_le π.tail (hcleared equations hregular (fun _ => id) π (by simp))
  have hvalue : |π.tail.residual 1 w.coefficients * π.leading| ≤ free + 1 := by
    rw [abs_mul]
    exact (mul_le_of_le_one_right (abs_nonneg _) hleading).trans hrest
  refine ⟨?_, rfl, h.free_le.trans (Nat.le_succ _), ?_, ?_, fun e he => ?_⟩
  · obtain ⟨columns, heliminate, hsubstitute⟩ := h.run
    refine ⟨.pivot π.leading π.tail.coefficients π.target :: columns, ?_, ?_⟩
    · rw [eliminate, hsome]
      simp only
      rw [mapM_eq_ok fun e he => reduce_eq_ok hregular hmem (hothers e he) hne, ok_bind,
        heliminate]
      rfl
    · exact substitute_pivot_eq_ok hsubstitute h.scale_eq (h.room hbound) hleading hne
        (hregular.abs_target_le hmem) fun c hc =>
          hregular.abs_coefficient_le hmem c (List.mem_of_mem_tail hc)
  · rw [List.length_cons]
    push_cast
    refine List.forall_mem_cons.mpr ⟨by linarith, fun c hc => ?_⟩
    have := h.abs_coefficient_le c hc
    omega
  · have hsum := h.sum_abs_le
    rw [List.map_cons, List.sum_cons, List.length_cons]
    push_cast
    linarith
  · have hunit := leading_mul_self hregular hmem hne
    have hlength := (he.length_eq e (by simp)).trans (hregular.length_eq _ hmem).symm
    rw [residual_cleared hlength hunit (residual_pivot_eq_zero hunit _)]
    exact h.abs_residual_le (π.cleared e).tail
      (hcleared (e :: equations) he (fun e' he' => by simp [he']) (π.cleared e) (by simp))

end UnitRun

/-- Up to `2^32` unknowns, a regular system is solved with unit pivots. -/
theorem exists_unitRun :
    ∀ {available : List Bool} {equations : List Equation}, available.length ≤ 2 ^ 32 →
      Regular available.length equations → ∃ free w, UnitRun available equations free w
  | [], equations, _, _ => ⟨_, _, UnitRun.nil equations⟩
  | a :: available, equations, hbound, h => by
    have hlt : available.length < 2 ^ 32 := hbound
    cases hselect : selectPivot equations with
    | none =>
      obtain ⟨free, w, hw⟩ := exists_unitRun hlt.le h.tail
      exact ⟨_, _, hw.free_step hselect⟩
    | some selected =>
      obtain ⟨π, others⟩ := selected
      obtain ⟨hne, hperm⟩ := selectPivot_eq_some hselect
      have hregular : Regular available.length ((others.map π.cleared).map Equation.tail) := by
        refine h.tail_cleared (hperm.subset (by simp)) hne (List.forall_mem_map.mpr fun e he => ?_)
        exact List.mem_cons_of_mem _ (List.mem_map_of_mem (hperm.subset (by simp [he])))
      obtain ⟨free, w, hw⟩ := exists_unitRun hlt.le hregular
      exact ⟨_, _, hw.pivot hselect h hlt⟩

/-! ## Unimodular matrices -/

/-- The columns of the system of a matrix : the target, then the available rows, with 0 for
the others. -/
def systemVector (available : List Bool) (rows : List (List Int32)) : ℕ → ℕ → ℤ
  | 0 => Pi.single 0 1
  | i + 1 => if available.getD i false then rowEntries (rows.getD i []) else 0

theorem entries_columnEquation {available : List Bool} {rows : List (List Int32)}
    (hlength : available.length = rows.length) (i j : ℕ) :
    (columnEquation available rows j).entries i = systemVector available rows i j := by
  cases i with
  | zero => simp [systemVector, columnEquation, Equation.entries, Pi.single_apply]
  | succ i =>
    simp only [Equation.entries, columnEquation, systemVector, List.getD_eq_getElem?_getD,
      List.getElem?_zipWith]
    by_cases hi : i < rows.length
    · have hi' : i < available.length := hlength ▸ hi
      simp only [hi, hi', List.getElem?_eq_getElem, Option.getD_some]
      split_ifs <;> rfl
    · have hi' : ¬ i < available.length := hlength ▸ hi
      simp [hi, hi']

/-- The system of a matrix is regular if its rows are unimodular together with the target. -/
theorem regular_system {rows : List (List Int32)} {available : List Bool}
    (h : Unimodular (insert (Pi.single 0 1) (rowEntries '' {row | row ∈ rows})))
    (hlength : available.length = rows.length) (columns : ℕ) :
    Regular available.length (system columns available rows) where
  length_eq e he := by
    obtain ⟨j, -, rfl⟩ := mem_system.mp he
    simp [columnEquation, hlength]
  unimodular := by
    have hvectors : (Matrix.of (systemVector available rows)).IsTotallyUnimodular := by
      refine (h.insert_single 0 0).isTotallyUnimodular fun i => ?_
      have hzero : (0 : ℕ → ℤ) = Pi.single 0 ((0 : SignType) : ℤ) := by simp
      cases i with
      | zero => exact Set.mem_insert_of_mem _ (Set.mem_insert _ _)
      | succ i =>
        rw [systemVector]
        split_ifs with hi
        · have hlt : i < rows.length := by
            by_contra hge
            rw [List.getD_eq_default _ _ (by omega)] at hi
            cases hi
          refine Set.mem_insert_of_mem _ (Set.mem_insert_of_mem _ ⟨_, ?_, rfl⟩)
          rw [List.getD_eq_getElem _ _ hlt]
          exact List.getElem_mem hlt
        · rw [hzero]
          exact Set.mem_insert _ _
    refine Unimodular.of_rows hvectors.transpose ?_
    rintro _ ⟨e, he, rfl⟩
    obtain ⟨j, -, rfl⟩ := mem_system.mp he
    exact ⟨j, funext fun i => (entries_columnEquation hlength i j).symm⟩

/-! ## No available rows -/

/-- Without available rows no equation has an unknown. -/
theorem eliminate_unavailable :
    ∀ {n : ℕ} {equations : List Equation}, (∀ e ∈ equations, e.Respects (.replicate n false)) →
      eliminate (.replicate n false) equations = .ok (.replicate n (.free false))
  | 0, _, _ => rfl
  | n + 1, equations, h => by
    rw [List.replicate_succ] at h ⊢
    have hnone : selectPivot equations = none := by
      refine Option.eq_none_iff_forall_ne_some.mpr fun selected hsome => ?_
      obtain ⟨hne, hperm⟩ := selectPivot_eq_some hsome
      cases (h _ (hperm.subset List.mem_cons_self)).available_of_leading_ne_zero hne
    have htail : ∀ e ∈ equations.map Equation.tail, e.Respects (.replicate n false) :=
      List.forall_mem_map.mpr fun e he => (h e he).tail
    rw [eliminate, hnone]
    simp only
    rw [eliminate_unavailable htail, ok_bind, List.replicate_succ]
    rfl

theorem substitute_unavailable (n : ℕ) :
    substitute (.replicate n (.free false)) = .ok ⟨.replicate n 0, 1⟩ := by
  induction n with
  | zero => rfl
  | succ n ih =>
    rw [List.replicate_succ, substitute, ih]
    rfl

/-! ## Weights of scale 1 -/

theorem makePositive_of_scale_eq_one {w : Weights} (h : w.scale = 1) : makePositive w = .ok w := by
  unfold makePositive
  rw [h]
  rfl

theorem takeOutDivisor_of_scale_eq_one {w : Weights} (h : w.scale = 1) : takeOutDivisor w = w := by
  have hle := (commonDivisor_pos (w := w) (by omega)).2
  unfold takeOutDivisor
  simp only
  rw [if_pos (by omega)]

end Elimination

open Elimination

/-- Up to `2^32` rows that are unimodular together with the target have weights of scale 1,
none of them greater than the number of rows. -/
theorem reconstructionWeights_of_unimodular {rows : List (List Int32)} (unavailable : List ℕ)
    (hwidth : 0 < width rows) (hrectangular : ∀ row ∈ rows, row.length = width rows)
    (h : Unimodular (insert (Pi.single 0 1) (rowEntries '' {row | row ∈ rows})))
    (hbound : rows.length ≤ 2 ^ 32) :
    ∃ w, reconstructionWeights rows unavailable = .ok w ∧ w.scale = 1 ∧
      ∀ c ∈ w.coefficients, |c| ≤ rows.length := by
  have hlength : (availability rows.length unavailable).length = rows.length := by
    simp [availability]
  obtain ⟨free, w, hw⟩ := exists_unitRun (by rw [hlength]; exact hbound)
    (regular_system h hlength (width rows))
  obtain ⟨columns, heliminate, hsubstitute⟩ := hw.run
  refine ⟨w, ?_, hw.scale_eq, hlength ▸ hw.abs_coefficient_le⟩
  rw [reconstructionWeights_eq unavailable hwidth hrectangular]
  simp only
  rw [heliminate, ok_bind, hsubstitute, ok_bind, makePositive_of_scale_eq_one hw.scale_eq, ok_bind,
    takeOutDivisor_of_scale_eq_one hw.scale_eq]
  rfl

/-- If no row is available, the weights are 0 and their scale is 1. -/
theorem reconstructionWeights_of_unavailable {rows : List (List Int32)} {unavailable : List ℕ}
    (hwidth : 0 < width rows) (hrectangular : ∀ row ∈ rows, row.length = width rows)
    (h : ∀ i < rows.length, i ∈ unavailable) :
    reconstructionWeights rows unavailable = .ok ⟨.replicate rows.length 0, 1⟩ := by
  have havailability : availability rows.length unavailable = .replicate rows.length false := by
    refine List.eq_replicate_iff.mpr ⟨by simp [availability], List.forall_mem_map.mpr ?_⟩
    intro i hi
    simpa using h i (List.mem_range.mp hi)
  have hrespects : ∀ e ∈ system (width rows) (.replicate rows.length false) rows,
      e.Respects (.replicate rows.length false) := by
    intro e he
    obtain ⟨j, -, rfl⟩ := mem_system.mp he
    exact columnEquation_respects (by simp) j
  rw [reconstructionWeights_eq unavailable hwidth hrectangular]
  simp only
  rw [havailability, eliminate_unavailable hrespects, ok_bind, substitute_unavailable, ok_bind,
    makePositive_of_scale_eq_one rfl, ok_bind, takeOutDivisor_of_scale_eq_one rfl]
  rfl

end AttributeEncryption
