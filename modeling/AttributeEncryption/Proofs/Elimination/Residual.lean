import AttributeEncryption.Proofs.Results
import AttributeEncryption.Sharing.Elimination
import Mathlib.Data.List.Forall2
import Mathlib.Tactic.Linarith
import Mathlib.Tactic.Ring

/-!
# Residuals of equations

A scaled vector `(scale, values)` solves an equation if its residual
`scale · target - coefficients · values` is 0. Residuals are exact integers. What the
checked arithmetic of the elimination computes is a matter of residuals alone :
`Equation.scale` and `Equation.subtract` give a multiple and a difference of residuals
(`overflowOr_scale`, `overflowOr_subtract`), and `Equation.reduce` gives a combination in
which the reduced equation has a factor other than 0 (`overflowOr_reduce`).

Every checked operation either reports an overflow or is exact, with all numbers in the
64-bit range.
-/

namespace AttributeEncryption

/-! ## The 64-bit range -/

/-- The 64-bit range. -/
def InWord (n : ℤ) : Prop :=
  leastWord ≤ n ∧ n ≤ greatestWord

instance (n : ℤ) : Decidable (InWord n) :=
  inferInstanceAs (Decidable (_ ∧ _))

/-- All numbers of the weights are in the 64-bit range. -/
def Weights.Fits (w : Weights) : Prop :=
  InWord w.scale ∧ ∀ c ∈ w.coefficients, InWord c

theorem inWord_of_abs_le {n : ℤ} (h : |n| ≤ greatestWord) : InWord n := by
  have := abs_le.mp h
  unfold InWord leastWord
  unfold greatestWord at this ⊢
  omega

namespace Elimination

/-- Checking is exact or reports an overflow. -/
theorem overflowOr_checked (n : ℤ) : OverflowOr (fun m => m = n ∧ InWord m) (checked n) := by
  unfold checked
  split_ifs with h
  · exact ⟨rfl, h⟩
  · rfl

theorem checked_of_inWord {n : ℤ} (h : InWord n) : checked n = .ok n :=
  if_pos h

/-- A list of exact computations is exact or reports an overflow. -/
theorem overflowOr_mapM {α : Type} {f : α → Except Failure ℤ} {g : α → ℤ}
    (h : ∀ a, OverflowOr (fun n => n = g a ∧ InWord n) (f a)) :
    ∀ l : List α, OverflowOr (fun ns => ns = l.map g ∧ ∀ n ∈ ns, InWord n) (l.mapM f)
  | [] => by simp [OverflowOr, pure, Except.pure]
  | a :: l => by
    rw [List.mapM_cons]
    refine (h a).bind fun n hn => (overflowOr_mapM h l).bind fun ns hns => ?_
    obtain ⟨rfl, hn⟩ := hn
    obtain ⟨rfl, hns⟩ := hns
    exact ⟨rfl, List.forall_mem_cons.mpr ⟨hn, hns⟩⟩

/-- A quotient is exact, and there is none only if the division is not. -/
theorem overflowOr_exactQuotient (n divisor : ℤ) :
    OverflowOr (fun q => ∀ quotient, q = some quotient → quotient * divisor = n ∧ InWord quotient)
      (exactQuotient n divisor) := by
  unfold exactQuotient
  split_ifs with h
  · have hexact : n.tdiv divisor * divisor = n := Int.tdiv_mul_cancel (Int.dvd_of_tmod_eq_zero h)
    rcases (overflowOr_checked (n.tdiv divisor)).cases with hc | ⟨m, hc, rfl, hword⟩
    · rw [hc]
      rfl
    · rw [hc]
      rintro quotient ⟨rfl⟩
      exact ⟨hexact, hword⟩
  · rintro quotient ⟨⟩

/-! ## Sums of products -/

/-- The sum of the products of two lists, term by term. -/
def sumProduct (a b : List ℤ) : ℤ :=
  (List.zipWith (· * ·) a b).sum

@[simp] theorem sumProduct_nil_left (b : List ℤ) : sumProduct [] b = 0 :=
  rfl

@[simp] theorem sumProduct_nil_right (a : List ℤ) : sumProduct a [] = 0 := by
  simp [sumProduct]

@[simp] theorem sumProduct_cons (x y : ℤ) (a b : List ℤ) :
    sumProduct (x :: a) (y :: b) = x * y + sumProduct a b :=
  rfl

theorem sumProduct_map_mul_left (k : ℤ) :
    ∀ a b : List ℤ, sumProduct (a.map (· * k)) b = k * sumProduct a b
  | [], b => by simp
  | x :: a, [] => by simp
  | x :: a, y :: b => by
    simp only [List.map_cons, sumProduct_cons, sumProduct_map_mul_left k a b]
    ring

theorem sumProduct_map_mul_right (k : ℤ) :
    ∀ a b : List ℤ, sumProduct a (b.map (· * k)) = k * sumProduct a b
  | [], b => by simp
  | x :: a, [] => by simp
  | x :: a, y :: b => by
    simp only [List.map_cons, sumProduct_cons, sumProduct_map_mul_right k a b]
    ring

theorem sumProduct_zipWith_sub (k : ℤ) :
    ∀ {a b : List ℤ} (c : List ℤ), a.length = b.length →
      sumProduct (List.zipWith (fun x y => x - k * y) a b) c = sumProduct a c - k * sumProduct b c
  | [], [], c, _ => by simp
  | x :: a, y :: b, [], _ => by simp
  | x :: a, y :: b, z :: c, h => by
    simp only [List.zipWith_cons_cons, sumProduct_cons,
      sumProduct_zipWith_sub k c (by simpa using h)]
    ring

/-- There is a number for every row, and those of unavailable rows are 0. -/
def Vanishes (available : List Bool) (values : List ℤ) : Prop :=
  List.Forall₂ (fun a c => a = false → c = 0) available values

theorem vanishes_map_mul_iff {available : List Bool} {values : List ℤ} {k : ℤ} (hk : k ≠ 0) :
    Vanishes available (values.map (· * k)) ↔ Vanishes available values := by
  simp [Vanishes, List.forall₂_map_right_iff, hk]

/-! ## Residuals -/

namespace Equation

/-- What is missing for the scaled vector `values` to solve the equation. -/
def residual (e : Equation) (scale : ℤ) (values : List ℤ) : ℤ :=
  scale * e.target - sumProduct e.coefficients values

/-- All numbers of the equation are in the 64-bit range. -/
def Fits (e : Equation) : Prop :=
  InWord e.target ∧ ∀ c ∈ e.coefficients, InWord c

/-- The equation multiplied by a number, exactly. -/
def times (e : Equation) (factor : ℤ) : Equation :=
  ⟨e.coefficients.map (· * factor), e.target * factor⟩

/-- The equation less a multiple of another one, exactly. -/
def minus (e : Equation) (factor : ℤ) (pivot : Equation) : Equation :=
  ⟨List.zipWith (fun x y => x - factor * y) e.coefficients pivot.coefficients,
    e.target - factor * pivot.target⟩

theorem residual_times (e : Equation) (k scale : ℤ) (values : List ℤ) :
    (e.times k).residual scale values = k * e.residual scale values := by
  simp only [residual, times, sumProduct_map_mul_left]
  ring

theorem residual_minus (k : ℤ) {pivot e : Equation}
    (h : e.coefficients.length = pivot.coefficients.length) (scale : ℤ) (values : List ℤ) :
    (e.minus k pivot).residual scale values =
      e.residual scale values - k * pivot.residual scale values := by
  simp only [residual, minus, sumProduct_zipWith_sub k values h]
  ring

/-- A residual grows with the vector. -/
theorem residual_map_mul (e : Equation) (k scale : ℤ) (values : List ℤ) :
    e.residual (scale * k) (values.map (· * k)) = k * e.residual scale values := by
  simp only [residual, sumProduct_map_mul_right]
  ring

/-- The next unknown contributes by the leading coefficient. -/
theorem residual_cons (e : Equation) (scale value : ℤ) (values : List ℤ) :
    e.residual scale (value :: values) = e.tail.residual scale values - e.leading * value := by
  rcases e with ⟨_ | ⟨c, cs⟩, t⟩
  · simp [residual, tail, leading]
  · simp only [residual, tail, leading, sumProduct_cons, List.tail_cons, List.headD_cons]
    ring

theorem residual_cons_of_leading_eq_zero {e : Equation} (h : e.leading = 0) (scale value : ℤ)
    (values : List ℤ) : e.residual scale (value :: values) = e.tail.residual scale values := by
  rw [residual_cons, h, zero_mul, sub_zero]

theorem leading_minus_mul {pivot e : Equation} (k l : ℤ)
    (h : e.coefficients.length = pivot.coefficients.length) :
    ((e.times k).minus l pivot).leading = e.leading * k - l * pivot.leading := by
  rcases e with ⟨_ | ⟨c, cs⟩, t⟩ <;> rcases pivot with ⟨_ | ⟨p, ps⟩, u⟩ <;>
    simp_all [times, minus, leading]

/-- The equation has a coefficient for every unknown, and those of unavailable rows are
0. -/
def Respects (available : List Bool) (e : Equation) : Prop :=
  Vanishes available e.coefficients

theorem Respects.length_eq {available : List Bool} {e : Equation} (h : e.Respects available) :
    e.coefficients.length = available.length :=
  (List.Forall₂.length_eq h).symm

theorem Respects.minus {available : List Bool} {pivot e : Equation} (h : e.Respects available)
    (hp : pivot.Respects available) (k l : ℤ) : ((e.times k).minus l pivot).Respects available := by
  rcases e with ⟨cs, t⟩
  rcases pivot with ⟨ps, u⟩
  unfold Respects Vanishes times Equation.minus at *
  simp only at h hp ⊢
  induction h generalizing ps with
  | nil => simp
  | cons hc _ ih =>
    cases hp with
    | cons hq hqs =>
      refine List.Forall₂.cons (fun ha => ?_) (ih _ hqs)
      simp [hc ha, hq ha]

theorem Respects.tail {a : Bool} {available : List Bool} {e : Equation}
    (h : e.Respects (a :: available)) : e.tail.Respects available := by
  rcases e with ⟨_ | ⟨c, cs⟩, t⟩
  · cases h
  · cases h with
    | cons _ h => exact h

/-- A pivot belongs to an available row. -/
theorem Respects.available_of_leading_ne_zero {a : Bool} {available : List Bool} {e : Equation}
    (h : e.Respects (a :: available)) (hne : e.leading ≠ 0) : a = true := by
  rcases e with ⟨_ | ⟨c, cs⟩, t⟩
  · exact absurd rfl hne
  · cases h with
    | cons h _ => exact Bool.of_not_eq_false fun ha => hne (h ha)

/-! ## The operations on equations -/

theorem overflowOr_scale (k : ℤ) (e : Equation) :
    OverflowOr (fun e' => e' = e.times k ∧ e'.Fits) (e.scale k) := by
  have hmap := overflowOr_mapM (fun c => overflowOr_checked (c * k)) e.coefficients
  refine hmap.bind fun cs hcs => ?_
  refine (overflowOr_checked (e.target * k)).bind fun t ht => ?_
  obtain ⟨rfl, hcs⟩ := hcs
  obtain ⟨rfl, ht⟩ := ht
  exact ⟨rfl, ht, hcs⟩

theorem overflowOr_minusMultiple (k a b : ℤ) :
    OverflowOr (fun n => n = a - k * b ∧ InWord n) (minusMultiple k a b) := by
  refine (overflowOr_checked (k * b)).bind fun product h => ?_
  obtain ⟨rfl, -⟩ := h
  exact overflowOr_checked _

theorem overflowOr_subtract (k : ℤ) (pivot e : Equation) :
    OverflowOr (fun e' => e' = e.minus k pivot ∧ e'.Fits) (subtract k pivot e) := by
  have hzip := overflowOr_mapM (fun p : ℤ × ℤ => overflowOr_minusMultiple k p.1 p.2)
    (e.coefficients.zip pivot.coefficients)
  rw [List.map_zip_eq_zipWith] at hzip
  refine hzip.bind fun cs hcs => ?_
  refine (overflowOr_minusMultiple k e.target pivot.target).bind fun t ht => ?_
  obtain ⟨rfl, hcs⟩ := hcs
  obtain ⟨rfl, ht⟩ := ht
  exact ⟨rfl, ht, hcs⟩

/-- `e'` is what the pivot leaves of `e` : the next unknown is gone, and the residuals of
`e` and `e'` differ by a factor and a multiple of the pivot's residual. -/
structure Reduct (pivot e e' : Equation) : Prop where
  leading : e'.leading = 0
  residual : ∃ k l : ℤ, k ≠ 0 ∧ ∀ scale values,
    e'.residual scale values = k * e.residual scale values - l * pivot.residual scale values
  respects : ∀ available, e.Respects available → pivot.Respects available → e'.Respects available
  fits : e.Fits → e'.Fits

theorem Reduct.of_leading_eq_zero {pivot e : Equation} (h : e.leading = 0) : Reduct pivot e e where
  leading := h
  residual := ⟨1, 0, one_ne_zero, fun _ _ => by ring⟩
  respects _ h _ := h
  fits h := h

theorem Reduct.of_minus {pivot e e' : Equation} {k l : ℤ}
    (hlength : e.coefficients.length = pivot.coefficients.length) (hk : k ≠ 0)
    (hleading : e.leading * k = l * pivot.leading) (h : e' = (e.times k).minus l pivot)
    (hfits : e'.Fits) : Reduct pivot e e' where
  leading := by rw [h, leading_minus_mul k l hlength, hleading, sub_self]
  residual := by
    refine ⟨k, l, hk, fun scale values => ?_⟩
    rw [h, residual_minus l (by simpa [times] using hlength), residual_times]
  respects _ he hp := h ▸ he.minus hp k l
  fits _ := hfits

/-- What solves the pivot solves an equation exactly if it solves the reduct. -/
theorem Reduct.residual_tail_eq_zero_iff {pivot e e' : Equation} (h : Reduct pivot e e')
    {scale value : ℤ} {values : List ℤ} (hpivot : pivot.residual scale (value :: values) = 0) :
    e'.tail.residual scale values = 0 ↔ e.residual scale (value :: values) = 0 := by
  obtain ⟨k, l, hk, hresidual⟩ := h.residual
  have hvalue := hresidual scale (value :: values)
  rw [hpivot, mul_zero, sub_zero, residual_cons_of_leading_eq_zero h.leading] at hvalue
  rw [hvalue, mul_eq_zero, or_iff_right hk]

/-- Reducing an equation by a pivot gives a reduct of it, or an overflow. -/
theorem overflowOr_reduce {pivot e : Equation} (hp : pivot.leading ≠ 0)
    (hlength : e.coefficients.length = pivot.coefficients.length) :
    OverflowOr (Reduct pivot e) (reduce pivot e) := by
  have htimes : e.times 1 = e := by simp [times]
  unfold reduce
  split_ifs with he
  · exact Reduct.of_leading_eq_zero he
  · refine (overflowOr_exactQuotient e.leading pivot.leading).bind fun q hq => ?_
    cases q with
    | some q =>
      refine (overflowOr_subtract q pivot e).mono fun e' h => ?_
      refine Reduct.of_minus hlength one_ne_zero ?_ (by rw [htimes]; exact h.1) h.2
      rw [mul_one, (hq q rfl).1]
    | none =>
      refine (overflowOr_scale pivot.leading e).bind fun scaled hs => ?_
      obtain ⟨rfl, -⟩ := hs
      refine (overflowOr_subtract e.leading pivot _).mono fun e' h => ?_
      exact Reduct.of_minus hlength hp rfl h.1 h.2

end Equation

end Elimination

end AttributeEncryption
