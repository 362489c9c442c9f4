import AttributeEncryption.Proofs.Elimination.Saturation
import AttributeEncryption.Proofs.Elimination.UnitPivots
import AttributeEncryption.Proofs.SpanProgram.Combination

/-!
# Reconstruction for access trees

The matrix of an access tree is unimodular together with the target, so its weights always
exist and have scale 1; they reach the target exactly when the held leaves satisfy the tree
(`compile_reconstructs`).
-/

namespace AttributeEncryption

/-- The unavailable rows are those with rejected labels. -/
theorem ShareMatrix.mem_unavailable_iff {m : ShareMatrix} {held : UInt32 → Bool} {i : ℕ} :
    i ∈ m.unavailable held ↔ ∃ id, m.label? i = some id ∧ held id = false := by
  simp [unavailable, label?, List.mem_zipIdx_iff_getElem?, and_comm]

namespace Formula

variable {tree : AccessTree} {m : ShareMatrix}

namespace Compiled

theorem weightedSum_eq (h : tree.Compiled m) (weights : List ℤ) (j : ℕ) :
    weightedSum weights m.rows j = weightedSum weights ((tree.label [1] 1).1.map Prod.snd) j := by
  rw [h.rows_eq]
  exact weightedSum_map_congr j (fun p hp => by rw [rowEntries_resize (h.length_le p hp)]) weights

/-- The rows are unimodular together with the target. -/
theorem unimodular (h : tree.Compiled m) :
    Unimodular (insert (Pi.single 0 1) (rowEntries '' {row | row ∈ m.rows})) := by
  have hstart : Unimodular (insert (rowEntries [1]) ∅) := by
    rw [rowEntries_one]
    exact Unimodular.empty.insert_single 0 1
  have hrows := (@unimodular_label _ tree [1] 1 ∅ le_rfl (by simp) hstart).insert_single 0 1
  refine hrows.mono (Set.insert_subset_insert ?_)
  rintro _ ⟨row, hrow, rfl⟩
  have hmem : row ∈ m.rows := hrow
  rw [h.rows_eq] at hmem
  obtain ⟨p, hp, rfl⟩ := List.mem_map.mp hmem
  exact Or.inl ⟨p, hp, (rowEntries_resize (h.length_le p hp)).symm⟩

theorem abs_rowEntries_le (h : tree.Compiled m) :
    ∀ row ∈ m.rows, ∀ j, |rowEntries row j| ≤ 1 :=
  fun row hrow => h.unimodular.abs_le_one (Set.mem_insert_of_mem _ ⟨row, hrow, rfl⟩)

/-- Held leaves that satisfy the tree reach the target. -/
theorem reachable_of_holds (h : tree.Compiled m) {held : UInt32 → Bool}
    (hholds : tree.holds held = true) : Reachable m.rows (m.unavailable held) := by
  obtain ⟨weights, hweighs, hsum⟩ := @exists_weights _ held tree [1] 1 le_rfl hholds
  have hlength := hweighs.length_eq
  refine ⟨1, weights, one_ne_zero, by rw [h.rows_length_eq, hlength], fun i hi => ?_,
    fun j _ => ?_⟩
  · obtain ⟨id, hid, hheld⟩ := ShareMatrix.mem_unavailable_iff.mp hi
    rw [h.label?_eq, Option.map_eq_some_iff] at hid
    obtain ⟨p, hp, rfl⟩ := hid
    obtain ⟨hlt, rfl⟩ := List.getElem?_eq_some_iff.mp hp
    rw [List.getD_eq_getElem _ _ (hlength ▸ hlt)]
    exact hweighs.get hlt (hlength ▸ hlt) hheld
  · rw [h.weightedSum_eq, hsum, rowEntries_one, Pi.single_apply]

/-- Held leaves that reach the target satisfy the tree : otherwise the weighted sum of their
rows had product 0 with a vector that begins with 1. -/
theorem holds_of_reachable (h : tree.Compiled m) {held : UInt32 → Bool}
    (hreachable : Reachable m.rows (m.unavailable held)) : tree.holds held = true := by
  by_contra hfalse
  obtain ⟨k, hk, hrows⟩ := exists_orthogonal (Bool.eq_false_iff.mpr hfalse)
  obtain ⟨d, weights, hd, hlength, hzero, hsum⟩ := hreachable
  have hwidth : 0 < m.columns := m.width_pos
  have hproduct := @sum_weightedSum_mul m.columns k weights ((tree.label [1] 1).1.map Prod.snd)
    (List.forall_mem_map.mpr h.length_le)
  have hleft : ∑ j ∈ Finset.range m.columns,
      weightedSum weights ((tree.label [1] 1).1.map Prod.snd) j * k j = d := by
    rw [Finset.sum_eq_single_of_mem 0 (by simpa using hwidth) fun j hj hne => ?_]
    · rw [← h.weightedSum_eq, hsum 0 hwidth, if_pos rfl, hk, mul_one]
    · rw [← h.weightedSum_eq, hsum j (Finset.mem_range.mp hj), if_neg hne, zero_mul]
  have hright : (List.zipWith (fun w row => w * product row k) weights
      ((tree.label [1] 1).1.map Prod.snd)).sum = 0 := by
    refine List.sum_eq_zero fun x hx => ?_
    obtain ⟨i, hi, rfl⟩ := List.getElem_of_mem hx
    rw [List.length_zipWith, List.length_map] at hi
    have hlt : i < (tree.label [1] 1).1.length := by omega
    rw [List.getElem_zipWith, List.getElem_map]
    by_cases hheld : held (tree.label [1] 1).1[i].1 = true
    · rw [hrows _ (List.getElem_mem hlt) hheld, mul_zero]
    · have hi' := hzero i (ShareMatrix.mem_unavailable_iff.mpr
        ⟨_, by rw [h.label?_eq, List.getElem?_eq_getElem hlt]; rfl, by simpa using hheld⟩)
      rw [List.getD_eq_getElem _ _ (by omega)] at hi'
      rw [hi', zero_mul]
  exact hd (hleft.symm.trans (hproduct.trans hright))

theorem reachable_iff (h : tree.Compiled m) (held : UInt32 → Bool) :
    Reachable m.rows (m.unavailable held) ↔ tree.holds held = true :=
  ⟨h.holds_of_reachable, h.reachable_of_holds⟩

/-- There are no more leaves than ids. -/
theorem leaves_length_le (h : tree.Compiled m) : tree.leaves.length ≤ 2 ^ 32 := by
  rw [← h.labels_eq]
  have hcard := (m.labels_nodup.map fun _ _ => UInt32.toFin_inj.mp).length_le_card
  rwa [List.length_map, Fintype.card_fin] at hcard

/-- The weights of the matrix of a tree exist and have scale 1. -/
theorem exists_reconstruction (h : tree.Compiled m) (held : UInt32 → Bool) :
    ∃ w, m.weights (m.unavailable held) = .ok w ∧ w.scale = 1 ∧
      (∀ c ∈ w.coefficients, |c| ≤ tree.leaves.length) ∧
      Reconstruction m.rows (m.unavailable held) w := by
  obtain ⟨w, hw, hscale, hle⟩ := reconstructionWeights_of_unimodular (m.unavailable held)
    m.width_pos m.rectangular h.unimodular (h.rowCount_eq.trans_le h.leaves_length_le)
  rw [h.rowCount_eq] at hle
  exact ⟨w, hw, hscale, hle,
    (overflowOr_reconstructionWeights _ m.width_pos m.rectangular).of_eq_ok hw⟩

end Compiled

/-- An access tree with distinct leaves, up to `2^31` of them, compiles to a matrix whose
weights exist for every set of held leaves. Their scale is 1, there is one for each row,
those of rows that are not held are 0, and none is greater than the number of leaves. They
reach the target exactly if the held leaves satisfy the tree. -/
theorem compile_reconstructs (tree : AccessTree) (held : UInt32 → Bool)
    (hnodup : tree.leaves.Nodup) (hbound : tree.leaves.length ≤ 2 ^ 31) :
    ∃ m w, tree.compile = .ok m ∧ m.weights (m.unavailable held) = .ok w ∧ w.scale = 1 ∧
      w.coefficients.length = m.rowCount ∧
      (∀ i ∈ m.unavailable held, w.coefficient i = 0) ∧
      (∀ c ∈ w.coefficients, |c| ≤ tree.leaves.length) ∧
      w.reachesTarget m.rows = tree.holds held := by
  obtain ⟨m, hm⟩ := exists_compiled hnodup
  obtain ⟨w, hw, hscale, hle, hreconstruction⟩ := hm.exists_reconstruction held
  refine ⟨m, w, hm.compile_eq, hw, hscale, hreconstruction.length_eq, hreconstruction.zero_of_mem,
    hle, ?_⟩
  have hroom : (m.rows.length : ℤ) * tree.leaves.length ≤ greatestWord := by
    have hle : (tree.leaves.length : ℤ) ≤ 2 ^ 31 := by exact_mod_cast hbound
    have := mul_le_mul hle hle (by positivity) (by decide)
    rw [hm.rowCount_eq]
    exact this.trans (by decide)
  rw [Bool.eq_iff_iff, Weights.reachesTarget_iff (by positivity) m.width_pos m.rectangular
    hm.abs_rowEntries_le hle hroom, hreconstruction.sum_eq_iff, hm.reachable_iff]

/-- Leaf 1 may be missing from `(1 ∨ 2) ∧ 3`, and the weights still reach the target. -/
theorem exists_weights_without_first :
    ∃ m w, compile (.and (.or (.leaf 1) (.leaf 2)) (.leaf 3)) = .ok m ∧
      m.weights (m.unavailable (· != 1)) = .ok w ∧ w.scale = 1 ∧
      w.reachesTarget m.rows = true := by
  obtain ⟨m, w, hm, hw, hscale, -, -, -, hreaches⟩ := compile_reconstructs
    (.and (.or (.leaf 1) (.leaf 2)) (.leaf 3)) (· != 1) (by decide) (by decide)
  exact ⟨m, w, hm, hw, hscale, hreaches.trans (by decide)⟩

end Formula

end AttributeEncryption
