import AttributeEncryption.Proofs.SpanProgram.Labelling
import Mathlib.Algebra.BigOperators.Group.List.Basic
import Mathlib.Algebra.BigOperators.Intervals
import Mathlib.Algebra.BigOperators.Ring.Finset

/-!
# Formulas and combinations of their rows

A formula holds exactly when the rows of the held leaves combine to the vector that the
formula was handed. If it holds, the weights are 0 and 1 (`exists_weights`). If it does not,
a vector separates : its product with the rows of held leaves is 0, and its first entry is 1
(`exists_orthogonal`). The separating vector is built along the column counter, every
conjunction choosing the entry of its own column.

For the matrix of an access tree this says which sets of leaves reach the target
(`Compiled.reachable_iff`).
-/

namespace AttributeEncryption

/-! ## Weighted sums of joined rows -/

theorem weightedSum_append {weights weights' : List ℤ} {rows rows' : List (List Int32)} (j : ℕ)
    (h : weights.length = rows.length) :
    weightedSum (weights ++ weights') (rows ++ rows') j =
      weightedSum weights rows j + weightedSum weights' rows' j := by
  rw [weightedSum, List.zipWith_append h, List.sum_append]
  rfl

theorem weightedSum_replicate_zero (n : ℕ) (j : ℕ) :
    ∀ rows : List (List Int32), weightedSum (List.replicate n 0) rows j = 0 := by
  induction n with
  | zero => simp
  | succ n ih =>
    intro rows
    cases rows with
    | nil => simp
    | cons row rows => rw [List.replicate_succ, weightedSum_cons, ih, zero_mul, add_zero]

/-- Only the entries of the rows matter. -/
theorem weightedSum_map_congr {α : Type} {f g : α → List Int32} (j : ℕ) :
    ∀ {items : List α}, (∀ a ∈ items, rowEntries (f a) j = rowEntries (g a) j) →
      ∀ weights, weightedSum weights (items.map f) j = weightedSum weights (items.map g) j
  | [], _, weights => by simp
  | a :: items, _, [] => by simp
  | a :: items, h, w :: weights => by
    obtain ⟨ha, hitems⟩ := List.forall_mem_cons.mp h
    simp only [List.map_cons, weightedSum_cons, ha, weightedSum_map_congr j hitems]

/-! ## Products with rows -/

/-- The product of a row and a vector. -/
def product (row : List Int32) (vector : ℕ → ℤ) : ℤ :=
  ∑ j ∈ Finset.range row.length, rowEntries row j * vector j

theorem product_eq_sum {row : List Int32} {n : ℕ} (h : row.length ≤ n) (vector : ℕ → ℤ) :
    product row vector = ∑ j ∈ Finset.range n, rowEntries row j * vector j := by
  refine Finset.sum_subset (Finset.range_subset_range.mpr h) fun j _ hj => ?_
  rw [rowEntries_of_length_le (by simpa using hj), zero_mul]

theorem product_congr {row : List Int32} {vector vector' : ℕ → ℤ}
    (h : ∀ j < row.length, vector j = vector' j) : product row vector = product row vector' :=
  Finset.sum_congr rfl fun j hj => by rw [h j (Finset.mem_range.mp hj)]

theorem product_resize_append {row : List Int32} {n : ℕ} (h : row.length ≤ n) (vector : ℕ → ℤ) :
    product (resize n row ++ [1]) vector = product row vector + vector n := by
  rw [product_eq_sum (n := n + 1) (by simp), product_eq_sum (h.trans (Nat.le_succ n)),
    rowEntries_resize_append h]
  simp [add_mul, Finset.sum_add_distrib, Pi.single_apply]

theorem product_replicate_append (n : ℕ) (vector : ℕ → ℤ) :
    product (List.replicate n 0 ++ [-1]) vector = -vector n := by
  rw [product_eq_sum (n := n + 1) (by simp), rowEntries_replicate_append]
  simp [Pi.single_apply]

/-- The product with a weighted sum of rows is the weighted sum of the products. -/
theorem sum_weightedSum_mul (n : ℕ) (vector : ℕ → ℤ) :
    ∀ {weights : List ℤ} {rows : List (List Int32)}, (∀ row ∈ rows, row.length ≤ n) →
      ∑ j ∈ Finset.range n, weightedSum weights rows j * vector j =
        (List.zipWith (fun w row => w * product row vector) weights rows).sum
  | [], rows, _ => by simp
  | w :: weights, [], _ => by simp
  | w :: weights, row :: rows, h => by
    obtain ⟨hrow, hrows⟩ := List.forall_mem_cons.mp h
    simp only [weightedSum_cons, add_mul, Finset.sum_add_distrib,
      sum_weightedSum_mul n vector hrows, List.zipWith_cons_cons, List.sum_cons,
      product_eq_sum hrow, Finset.mul_sum, mul_assoc]

/-! ## Rows of held leaves -/

namespace Formula

variable {α : Type}

/-- The weights of rows whose leaves are not held are 0. -/
def Weighs (held : α → Bool) (rows : List (α × List Int32)) (weights : List ℤ) : Prop :=
  List.Forall₂ (fun p w => held p.1 = false → w = 0) rows weights

theorem weighs_replicate_zero (held : α → Bool) :
    ∀ rows : List (α × List Int32), Weighs held rows (List.replicate rows.length 0)
  | [] => List.Forall₂.nil
  | _ :: rows => List.Forall₂.cons (fun _ => rfl) (weighs_replicate_zero held rows)

/-- If the formula holds, the rows of held leaves combine to its vector. -/
theorem exists_weights (held : α → Bool) (f : Formula α) {vector : List Int32} {next : ℕ}
    (hvector : vector.length ≤ next) (h : f.holds held = true) :
    ∃ weights, Weighs held (f.label vector next).1 weights ∧
      ∀ j, weightedSum weights ((f.label vector next).1.map Prod.snd) j = rowEntries vector j := by
  induction f generalizing vector next with
  | leaf a =>
    have ha : held a = true := h
    refine ⟨[1], List.Forall₂.cons (fun h => ?_) List.Forall₂.nil, fun j => ?_⟩
    · rw [ha] at h
      cases h
    · simp [label]
  | or l r hl hr =>
    have hle := l.le_label vector next
    rw [label_or]
    by_cases hleft : l.holds held = true
    · obtain ⟨weights, hweighs, hsum⟩ := hl hvector hleft
      have hlength := hweighs.length_eq
      refine ⟨_, List.rel_append hweighs (weighs_replicate_zero held _), fun j => ?_⟩
      rw [List.map_append, weightedSum_append j (by simp [hlength]), hsum,
        weightedSum_replicate_zero, add_zero]
    · have hright : r.holds held = true := by simpa [holds, hleft] using h
      obtain ⟨weights, hweighs, hsum⟩ := hr (hvector.trans hle) hright
      refine ⟨_, List.rel_append (weighs_replicate_zero held _) hweighs, fun j => ?_⟩
      rw [List.map_append, weightedSum_append j (by simp), hsum, weightedSum_replicate_zero,
        zero_add]
  | and l r hl hr =>
    have hle := l.le_label (resize next vector ++ [1]) (next + 1)
    obtain ⟨hleft, hright⟩ : l.holds held = true ∧ r.holds held = true := by
      simpa [holds] using h
    obtain ⟨weights, hweighs, hsum⟩ := @hl (resize next vector ++ [1]) (next + 1) (by simp) hleft
    obtain ⟨weights', hweighs', hsum'⟩ := @hr (List.replicate next 0 ++ [-1])
      (l.label (resize next vector ++ [1]) (next + 1)).2 (by simpa using hle) hright
    have hlength := hweighs.length_eq
    rw [label_and]
    refine ⟨_, List.rel_append hweighs hweighs', fun j => ?_⟩
    -- the entries of the conjunction's column cancel
    rw [List.map_append, weightedSum_append j (by simp [hlength]), hsum, hsum',
      rowEntries_resize_append hvector, rowEntries_replicate_append, Pi.add_apply,
      Pi.single_neg, Pi.neg_apply, add_neg_cancel_right]

/-! ## Orthogonal vectors -/

/-- The products of the vector with all rows of held leaves are 0. -/
def Orthogonal (held : α → Bool) (rows : List (α × List Int32)) (k : ℕ → ℤ) : Prop :=
  ∀ p ∈ rows, held p.1 = true → product p.2 k = 0

theorem Orthogonal.append {held : α → Bool} {rows rows' : List (α × List Int32)} {k : ℕ → ℤ}
    (h : Orthogonal held rows k) (h' : Orthogonal held rows' k) :
    Orthogonal held (rows ++ rows') k := by
  intro p hp
  rcases List.mem_append.mp hp with hp | hp
  · exact h p hp
  · exact h' p hp

/-- Entries beyond the used columns do not matter. -/
theorem Orthogonal.congr {held : α → Bool} {f : Formula α} {vector : List Int32} {next : ℕ}
    {k k' : ℕ → ℤ} (h : Orthogonal held (f.label vector next).1 k) (hvector : vector.length ≤ next)
    (hk : ∀ j < (f.label vector next).2, k' j = k j) :
    Orthogonal held (f.label vector next).1 k' := by
  intro p hp hheld
  rw [← h p hp hheld]
  exact product_congr fun j hj => hk j (hj.trans_le (f.length_le_label hvector p hp))

/-- A vector whose product with the formula's vector is 0 unless the formula fails can be
changed beyond the used columns so that it is orthogonal to the rows of all held leaves. -/
theorem exists_orthogonal_extension (held : α → Bool) (f : Formula α) {vector : List Int32}
    {next : ℕ} {k₀ : ℕ → ℤ} (hvector : vector.length ≤ next)
    (h : f.holds held = false ∨ product vector k₀ = 0) :
    ∃ k : ℕ → ℤ, (∀ j < next, k j = k₀ j) ∧ Orthogonal held (f.label vector next).1 k := by
  induction f generalizing vector next k₀ with
  | leaf a =>
    refine ⟨k₀, fun _ _ => rfl, fun p hp hheld => ?_⟩
    obtain rfl : p = (a, vector) := by simpa [label] using hp
    refine h.resolve_left fun hfalse => ?_
    rw [holds, hheld] at hfalse
    cases hfalse
  | or l r hl hr =>
    have hle := l.le_label vector next
    obtain ⟨k₁, hk₁, hrows₁⟩ := hl hvector (h.imp_left fun h => by
      simp only [holds, Bool.or_eq_false_iff] at h
      exact h.1)
    have hproduct : product vector k₁ = product vector k₀ :=
      product_congr fun j hj => hk₁ j (hj.trans_le hvector)
    obtain ⟨k, hk, hrows⟩ := @hr vector (l.label vector next).2 k₁ (hvector.trans hle) (by
      rw [hproduct]
      refine h.imp_left fun h => ?_
      simp only [holds, Bool.or_eq_false_iff] at h
      exact h.2)
    rw [label_or]
    exact ⟨k, fun j hj => (hk j (hj.trans_le hle)).trans (hk₁ j hj),
      (hrows₁.congr hvector hk).append hrows⟩
  | and l r hl hr =>
    have hle := l.le_label (resize next vector ++ [1]) (next + 1)
    -- the entry of the new column serves the part that has to give 0
    obtain ⟨c, hc, hc'⟩ : ∃ c, (l.holds held = false ∨ product vector k₀ + c = 0) ∧
        (r.holds held = false ∨ -c = 0) := by
      by_cases hright : r.holds held = true
      · refine ⟨0, h.imp (fun h => ?_) (fun h => by rw [h, add_zero]), Or.inr neg_zero⟩
        simpa [holds, hright] using h
      · exact ⟨-product vector k₀, Or.inr (add_neg_cancel _), Or.inl (by simpa using hright)⟩
    have hupdate : product vector (Function.update k₀ next c) = product vector k₀ :=
      product_congr fun j hj => Function.update_of_ne (by omega) _ _
    obtain ⟨k₁, hk₁, hrows₁⟩ := @hl (resize next vector ++ [1]) (next + 1)
      (Function.update k₀ next c) (by simp) (by
        rw [product_resize_append hvector, hupdate, Function.update_self]
        exact hc)
    have hnext : k₁ next = c := by rw [hk₁ next (Nat.lt_succ_self _), Function.update_self]
    obtain ⟨k, hk, hrows⟩ := @hr (List.replicate next 0 ++ [-1])
      (l.label (resize next vector ++ [1]) (next + 1)).2 k₁ (by simpa using hle) (by
        rw [product_replicate_append, hnext]
        exact hc')
    rw [label_and]
    refine ⟨k, fun j hj => ?_, (hrows₁.congr (by simp) hk).append hrows⟩
    rw [hk j (by omega), hk₁ j (by omega), Function.update_of_ne hj.ne]

/-- If the formula fails, a vector with first entry 1 is orthogonal to the rows of all held
leaves. -/
theorem exists_orthogonal {held : α → Bool} {f : Formula α} (h : f.holds held = false) :
    ∃ k : ℕ → ℤ, k 0 = 1 ∧ Orthogonal held (f.label [1] 1).1 k := by
  obtain ⟨k, hk, hrows⟩ := @exists_orthogonal_extension _ held f [1] 1 1 le_rfl (Or.inl h)
  exact ⟨k, hk 0 Nat.zero_lt_one, hrows⟩

end Formula

end AttributeEncryption
