import AttributeEncryption.Proofs.Elimination.Span
import AttributeEncryption.Proofs.Elimination.Unimodular
import AttributeEncryption.Sharing.Compile

/-!
# Rows of formulas

What `Formula.label` makes of a formula : one row for each leaf, in order
(`labels_label`), none of them reaching beyond the column counter (`length_le_label`). A
conjunction splits its vector over a column that was not used before, so the rows are
unimodular together with any vectors that the one they came from was unimodular with
(`unimodular_label`).

An access tree with distinct leaves compiles to the matrix of its rows (`exists_compiled`).
-/

namespace AttributeEncryption

/-! ## Entries of rows -/

theorem rowEntries_of_length_le {row : List Int32} {j : ℕ} (h : row.length ≤ j) :
    rowEntries row j = 0 := by
  rw [rowEntries, List.getD_eq_default _ _ h]
  rfl

@[simp] theorem rowEntries_one : rowEntries [1] = Pi.single 0 1 := by
  ext j
  cases j with
  | zero => rfl
  | succ j => simp [rowEntries]

theorem rowEntries_resize {n : ℕ} {row : List Int32} (h : row.length ≤ n) :
    rowEntries (resize n row) = rowEntries row := by
  ext j
  rw [rowEntries, rowEntries, resize, List.take_of_length_le h]
  by_cases hj : j < row.length
  · rw [List.getD_append _ _ _ _ hj]
  · rw [List.getD_append_right _ _ _ _ (not_lt.mp hj), List.getD_eq_default _ _ (not_lt.mp hj),
      List.getD_eq_getElem?_getD, List.getElem?_getD_replicate_default_eq]

/-- The vector of the left part of a conjunction. -/
theorem rowEntries_resize_append {n : ℕ} {row : List Int32} (h : row.length ≤ n) :
    rowEntries (resize n row ++ [1]) = rowEntries row + Pi.single n 1 := by
  ext j
  rw [← rowEntries_resize h, Pi.add_apply, Pi.single_apply, rowEntries, rowEntries]
  by_cases hj : j < n
  · rw [List.getD_append _ _ _ _ (by simpa using hj), if_neg hj.ne, add_zero]
  · rw [List.getD_append_right _ _ _ _ (by simpa using hj),
      List.getD_eq_default (resize n row) _ (by simpa using hj), length_resize]
    by_cases hjn : j = n
    · subst hjn
      simp
    · rw [if_neg hjn, List.getD_eq_default _ _ (by simp; omega)]
      rfl

/-- The vector of the right part of a conjunction. -/
theorem rowEntries_replicate_append (n : ℕ) :
    rowEntries (List.replicate n 0 ++ [-1]) = Pi.single n (-1) := by
  ext j
  rw [Pi.single_apply, rowEntries]
  by_cases hj : j < n
  · rw [List.getD_append _ _ _ _ (by simpa using hj), List.getD_replicate _ hj, if_neg hj.ne]
    rfl
  · rw [List.getD_append_right _ _ _ _ (by simpa using hj), List.length_replicate]
    by_cases hjn : j = n
    · subst hjn
      simp
    · rw [if_neg hjn, List.getD_eq_default _ _ (by simp; omega)]
      rfl

/-! ## Rows of a formula -/

namespace Formula

variable {α : Type}

theorem label_or (vector : List Int32) (next : ℕ) (l r : Formula α) :
    (or l r).label vector next =
      ((l.label vector next).1 ++ (r.label vector (l.label vector next).2).1,
        (r.label vector (l.label vector next).2).2) :=
  rfl

theorem label_and (vector : List Int32) (next : ℕ) (l r : Formula α) :
    (and l r).label vector next =
      let left := l.label (resize next vector ++ [1]) (next + 1)
      let right := r.label (List.replicate next 0 ++ [-1]) left.2
      (left.1 ++ right.1, right.2) :=
  rfl

/-- There is one row for each leaf. -/
theorem labels_label (f : Formula α) (vector : List Int32) (next : ℕ) :
    (f.label vector next).1.map Prod.fst = f.leaves := by
  induction f generalizing vector next with
  | leaf a => rfl
  | or l r hl hr => rw [label_or, List.map_append, hl, hr, leaves]
  | and l r hl hr =>
    rw [label_and]
    simp only
    rw [List.map_append, hl, hr, leaves]

/-- Every conjunction takes one column. -/
theorem snd_label (f : Formula α) (vector : List Int32) (next : ℕ) :
    (f.label vector next).2 = next + f.andGates := by
  induction f generalizing vector next with
  | leaf a => rfl
  | and l r hl hr =>
    rw [label_and, andGates]
    simp only [hl, hr]
    omega
  | or l r hl hr =>
    rw [label_or, andGates]
    simp only [hl, hr]
    omega

/-- The column counter never goes back. -/
theorem le_label (f : Formula α) (vector : List Int32) (next : ℕ) :
    next ≤ (f.label vector next).2 := by
  rw [snd_label]
  exact Nat.le_add_right next f.andGates

/-- Rows do not reach beyond the column counter. -/
theorem length_le_label (f : Formula α) {vector : List Int32} {next : ℕ}
    (h : vector.length ≤ next) :
    ∀ p ∈ (f.label vector next).1, p.2.length ≤ (f.label vector next).2 := by
  induction f generalizing vector next with
  | leaf a => simpa [label] using h
  | or l r hl hr =>
    intro p hp
    have hleft := l.le_label vector next
    rcases List.mem_append.mp hp with hp | hp
    · exact (hl h p hp).trans (r.le_label _ _)
    · exact hr (h.trans hleft) p hp
  | and l r hl hr =>
    intro p hp
    have hleft := l.le_label (resize next vector ++ [1]) (next + 1)
    rcases List.mem_append.mp hp with hp | hp
    · exact (hl (by simp) p hp).trans (r.le_label _ _)
    · exact hr (by simpa using hleft) p hp

/-- The rows of a formula as vectors. -/
def rowSet (f : Formula α) (vector : List Int32) (next : ℕ) : Set (ℕ → ℤ) :=
  {u | ∃ p ∈ (f.label vector next).1, rowEntries p.2 = u}

theorem rowSet_or (vector : List Int32) (next : ℕ) (l r : Formula α) :
    (or l r).rowSet vector next =
      l.rowSet vector next ∪ r.rowSet vector (l.label vector next).2 := by
  ext u
  simp only [rowSet, label_or, List.mem_append, Set.mem_union, Set.mem_ofPred_eq, or_and_right,
    exists_or]

theorem rowSet_and (vector : List Int32) (next : ℕ) (l r : Formula α) :
    (and l r).rowSet vector next =
      l.rowSet (resize next vector ++ [1]) (next + 1) ∪
        r.rowSet (List.replicate next 0 ++ [-1])
          (l.label (resize next vector ++ [1]) (next + 1)).2 := by
  ext u
  simp only [rowSet, label_and, List.mem_append, Set.mem_union, Set.mem_ofPred_eq, or_and_right,
    exists_or]

theorem rowSet_eq_zero (f : Formula α) {vector : List Int32} {next : ℕ} (h : vector.length ≤ next)
    {u : ℕ → ℤ} (hu : u ∈ f.rowSet vector next) {j : ℕ} (hj : (f.label vector next).2 ≤ j) :
    u j = 0 := by
  obtain ⟨p, hp, rfl⟩ := hu
  exact rowEntries_of_length_le ((f.length_le_label h p hp).trans hj)

/-- The rows of a formula may take the place of the vector they came from in a unimodular
set of vectors that do not reach beyond the column counter. -/
theorem unimodular_label (f : Formula α) {vector : List Int32} {next : ℕ} {s : Set (ℕ → ℤ)}
    (hvector : vector.length ≤ next) (hs : ∀ u ∈ s, ∀ j, next ≤ j → u j = 0)
    (h : Unimodular (insert (rowEntries vector) s)) :
    Unimodular (f.rowSet vector next ∪ s) := by
  induction f generalizing vector next s with
  | leaf a =>
    refine h.mono ?_
    rintro u (⟨p, hp, rfl⟩ | hu)
    · obtain rfl : p = (a, vector) := by simpa [label] using hp
      exact Set.mem_insert _ _
    · exact Set.mem_insert_of_mem _ hu
  | or l r hl hr =>
    have hle := l.le_label vector next
    have hleft : Unimodular (insert (rowEntries vector) (l.rowSet vector next ∪ s)) := by
      rw [← Set.union_insert]
      refine hl hvector ?_ (by simpa using h)
      rintro u (rfl | hu) j hj
      · exact rowEntries_of_length_le (hvector.trans hj)
      · exact hs u hu j hj
    have hright := hr (hvector.trans hle) (fun u hu j hj => ?_) hleft
    · rw [rowSet_or]
      exact hright.mono (by intro u; simp only [Set.mem_union]; tauto)
    · rcases hu with hu | hu
      · exact l.rowSet_eq_zero hvector hu hj
      · exact hs u hu j (hle.trans hj)
  | and l r hl hr =>
    have hle := l.le_label (resize next vector ++ [1]) (next + 1)
    have hsplit := h.split (rowEntries_of_length_le hvector) fun u hu => hs u hu next le_rfl
    rw [← rowEntries_resize_append hvector, ← rowEntries_replicate_append next] at hsplit
    have hlength : (resize next vector ++ [1]).length ≤ next + 1 := by simp
    have hleft := hl hlength (fun u hu j hj => ?_) hsplit
    · rw [Set.union_insert] at hleft
      have hright := hr (by simpa using hle) (fun u hu j hj => ?_) hleft
      · rw [rowSet_and]
        exact hright.mono (by intro u; simp only [Set.mem_union]; tauto)
      · rcases hu with hu | hu
        · exact l.rowSet_eq_zero hlength hu hj
        · exact hs u hu j (by omega)
    · rcases hu with rfl | hu
      · exact rowEntries_of_length_le (by simpa using hj)
      · exact hs u hu j (by omega)

/-- Rows of a formula have an entry if its vector has one. -/
theorem length_pos_label (f : Formula α) {vector : List Int32} {next : ℕ}
    (h : 0 < vector.length) : ∀ p ∈ (f.label vector next).1, 0 < p.2.length := by
  induction f generalizing vector next with
  | leaf a => simpa [label] using h
  | or l r hl hr => exact List.forall_mem_append.mpr ⟨hl h, hr h⟩
  | and l r hl hr => exact List.forall_mem_append.mpr ⟨hl (by simp), hr (by simp)⟩

theorem label_ne_nil (f : Formula α) (vector : List Int32) (next : ℕ) :
    (f.label vector next).1 ≠ [] := by
  induction f generalizing vector next with
  | leaf a => simp [label]
  | or l r hl _ => simp [label_or, hl]
  | and l r hl _ => simp [label_and, hl]

end Formula

/-! ## Compiled matrices -/

/-- Rows under new and distinct labels are all added. -/
theorem MatrixBuilder.addAll_eq_ok :
    ∀ {rows : List (UInt32 × List Int32)} {b : MatrixBuilder},
      (b.labels ++ rows.map Prod.fst).Nodup → ∃ b', b.addAll rows = .ok b' ∧
        b'.rows = b.rows ++ rows.map Prod.snd ∧ b'.labels = b.labels ++ rows.map Prod.fst
  | [], b, _ => ⟨b, rfl, by simp, by simp⟩
  | (id, row) :: rest, b, h => by
    have hnew : id ∉ b.labels := by
      intro hmem
      exact List.disjoint_of_nodup_append h hmem (by simp)
    obtain ⟨b₁, hb₁, hrows₁, hlabels₁⟩ : ∃ b₁, b.add id row = .ok b₁ ∧
        b₁.rows = b.rows ++ [row] ∧ b₁.labels = b.labels ++ [id] :=
      ⟨_, dif_neg hnew, rfl, rfl⟩
    obtain ⟨b', hb', hrows, hlabels⟩ := @addAll_eq_ok rest b₁ (by
      rw [hlabels₁, List.append_assoc]
      exact h)
    refine ⟨b', ?_, ?_, ?_⟩
    · rw [addAll, hb₁]
      exact hb'
    · rw [hrows, hrows₁, List.append_assoc, List.map_cons, List.singleton_append]
    · rw [hlabels, hlabels₁, List.append_assoc, List.map_cons, List.singleton_append]

/-- A matrix is as wide as the widest row that was added. -/
theorem MatrixBuilder.columns_of_finish {b : MatrixBuilder} {m : ShareMatrix}
    (h : b.finish = .ok m) : m.columns = greatestWidth b.rows := by
  simp only [finish] at h
  split_ifs at h with hpos
  cases h
  change width (b.rows.map (resize (greatestWidth b.rows))) = greatestWidth b.rows
  cases hrows : b.rows with
  | nil => simp [hrows, greatestWidth] at hpos
  | cons row rows => simp [width]

namespace Formula

/-- The matrix of an access tree : its rows, extended with zeros to one width. -/
structure Compiled (tree : AccessTree) (m : ShareMatrix) : Prop where
  compile_eq : tree.compile = .ok m
  labels_eq : m.labels = tree.leaves
  rows_eq : m.rows = (tree.label [1] 1).1.map fun p => resize m.columns p.2
  length_le : ∀ p ∈ (tree.label [1] 1).1, p.2.length ≤ m.columns

/-- An access tree with distinct leaves compiles. -/
theorem exists_compiled {tree : AccessTree} (h : tree.leaves.Nodup) :
    ∃ m, tree.Compiled m := by
  obtain ⟨b, hb, hrows, hlabels⟩ := @MatrixBuilder.addAll_eq_ok (tree.label [1] 1).1 .empty (by
    rw [labels_label]
    exact h)
  rw [labels_label] at hlabels
  obtain ⟨p, hp⟩ := List.exists_mem_of_ne_nil _ (tree.label_ne_nil [1] 1)
  have hwidest : ∀ p ∈ (tree.label [1] 1).1, p.2.length ≤ greatestWidth b.rows := by
    intro p hp
    rw [hrows]
    exact length_le_greatestWidth (List.mem_append_right _ (List.mem_map_of_mem hp))
  have hpos : 0 < greatestWidth b.rows :=
    (tree.length_pos_label (by simp) p hp).trans_le (hwidest p hp)
  obtain ⟨m, hm, hmrows, hmlabels⟩ : ∃ m, b.finish = .ok m ∧
      m.rows = b.rows.map (resize (greatestWidth b.rows)) ∧ m.labels = b.labels :=
    ⟨_, dif_pos hpos, rfl, rfl⟩
  have hcolumns := MatrixBuilder.columns_of_finish hm
  refine ⟨m, ?_, ?_, ?_, ?_⟩
  · unfold compile
    rw [hb]
    exact hm
  · rw [hmlabels, hlabels]
    rfl
  · have hempty : MatrixBuilder.empty.rows = [] := rfl
    rw [hcolumns, hmrows]
    nth_rewrite 2 [hrows]
    rw [hempty, List.nil_append, List.map_map]
    rfl
  · rw [hcolumns]
    exact hwidest

namespace Compiled

variable {tree : AccessTree} {m : ShareMatrix}

theorem rowCount_eq (h : tree.Compiled m) : m.rows.length = tree.leaves.length := by
  rw [← m.labels_length, h.labels_eq]

theorem rows_length_eq (h : tree.Compiled m) : m.rows.length = (tree.label [1] 1).1.length := by
  rw [h.rows_eq, List.length_map]

/-- The matrix is as wide as the widest row of the tree. -/
theorem columns_eq_greatestWidth (h : tree.Compiled m) :
    m.columns = greatestWidth ((tree.label [1] 1).1.map Prod.snd) := by
  obtain ⟨b, hb, hrows, -⟩ := @MatrixBuilder.addAll_eq_ok (tree.label [1] 1).1 .empty (by
    rw [labels_label]
    exact h.labels_eq ▸ m.labels_nodup)
  have hfinish := h.compile_eq
  unfold compile at hfinish
  rw [hb] at hfinish
  rw [MatrixBuilder.columns_of_finish hfinish, hrows]
  rfl

/-- The label and the row of a leaf stand at the same place. -/
theorem label?_eq (h : tree.Compiled m) (i : ℕ) :
    m.label? i = (tree.label [1] 1).1[i]?.map Prod.fst := by
  rw [ShareMatrix.label?, h.labels_eq, ← labels_label tree [1] 1, List.getElem?_map]

end Compiled

end Formula

end AttributeEncryption
