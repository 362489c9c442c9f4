import AttributeEncryption.Proofs.SpanProgram.Labelling
import AttributeEncryption.Proofs.SpanProgram.Positions

/-!
# The shape of compiled matrices

The matrix of an access tree in closed form : the row of a leaf follows from its position alone
(`Formula.leafRow`, `Compiled.rows_eq_leafRows`). Column 0 belongs to the root, every other
column to one conjunction, in preorder (`compile_shape`).

That needs two facts about the column counter. Vectors are never longer than it, so that
extending them cuts nothing off (`leafRows_label`), and some row reaches it at the end
(`exists_length_eq_label`).
-/

namespace AttributeEncryption

/-! ## Widths -/

theorem resize_of_length_eq {n : ℕ} {row : List Int32} (h : row.length = n) :
    resize n row = row := by
  simp [resize, h]

theorem resize_nil (n : ℕ) : resize n [] = List.replicate n 0 := by
  simp [resize]

theorem resize_add {n : ℕ} {row : List Int32} (h : row.length ≤ n) (extra : ℕ) :
    resize (n + extra) row = resize n row ++ List.replicate extra 0 := by
  rw [resize, resize, List.take_of_length_le h, List.take_of_length_le (h.trans (by omega)),
    List.append_assoc, List.replicate_append_replicate]
  congr 2
  omega

theorem greatestWidth_le {rows : List (List Int32)} {n : ℕ} (h : ∀ row ∈ rows, row.length ≤ n) :
    greatestWidth rows ≤ n := by
  induction rows with
  | nil => exact n.zero_le
  | cons row rows ih =>
    obtain ⟨hrow, hrows⟩ := List.forall_mem_cons.mp h
    exact max_le hrow (ih hrows)

namespace Formula

variable {α : Type}

/-! ## The column counter -/

/-- Some row reaches the column counter, if the vector does or a conjunction follows. -/
theorem exists_length_eq_label (f : Formula α) {vector : List Int32} {next : ℕ}
    (h : vector.length ≤ next) (hreach : vector.length = next ∨ 0 < f.andGates) :
    ∃ q ∈ (f.label vector next).1, q.2.length = next + f.andGates := by
  induction f generalizing vector next with
  | leaf a =>
    have hlength : vector.length = next := hreach.resolve_right (lt_irrefl 0)
    exact ⟨(a, vector), List.mem_singleton_self _, hlength⟩
  | and l r hl hr =>
    simp only [label_and, andGates, snd_label]
    by_cases hright : 0 < r.andGates
    · obtain ⟨q, hq, hlength⟩ := @hr (List.replicate next 0 ++ [-1]) (next + 1 + l.andGates)
        (by simp) (.inr hright)
      exact ⟨q, List.mem_append_right _ hq, by omega⟩
    · obtain ⟨q, hq, hlength⟩ := @hl (resize next vector ++ [1]) (next + 1) (by simp)
        (.inl (by simp))
      exact ⟨q, List.mem_append_left _ hq, by omega⟩
  | or l r hl hr =>
    rw [label_or, snd_label]
    rw [andGates] at hreach ⊢
    by_cases hright : 0 < r.andGates
    · obtain ⟨q, hq, hlength⟩ := @hr vector (next + l.andGates) (by omega) (.inr hright)
      exact ⟨q, List.mem_append_right _ hq, by omega⟩
    · obtain ⟨q, hq, hlength⟩ := hl h (hreach.imp_right fun h => by omega)
      exact ⟨q, List.mem_append_left _ hq, by omega⟩

/-! ## Rows of leaves -/

/-- The entry of the leaf at `p` in the column of the conjunction at `g`. -/
def gateEntry (f : Formula α) (g p : Path) : Int32 :=
  if f.Inherits (g ++ [.left]) p then 1 else if f.Inherits (g ++ [.right]) p then -1 else 0

/-- The entries of the leaf at `p` in the columns of all conjunctions. -/
def gateEntries (f : Formula α) (p : Path) : List Int32 :=
  f.gates.map fun g => f.gateEntry g p

/-- The row of the leaf at `p`. -/
def leafRow (f : Formula α) (p : Path) : List Int32 :=
  (if f.Inherits [] p then 1 else 0) :: f.gateEntries p

theorem length_gateEntries (f : Formula α) (p : Path) :
    (f.gateEntries p).length = f.andGates := by
  rw [gateEntries, List.length_map, length_gates]

theorem gateEntries_and_left (l r : Formula α) (p : Path) :
    (and l r).gateEntries (.left :: p) =
      (if l.Inherits [] p then 1 else 0) ::
        (l.gateEntries p ++ List.replicate r.andGates 0) := by
  simp [gateEntries, gates, map_inParts, gateEntry, ← length_gates, List.map_const']

theorem gateEntries_and_right (l r : Formula α) (p : Path) :
    (and l r).gateEntries (.right :: p) =
      (if r.Inherits [] p then -1 else 0) ::
        (List.replicate l.andGates 0 ++ r.gateEntries p) := by
  simp [gateEntries, gates, map_inParts, gateEntry, ← length_gates, List.map_const']

theorem gateEntries_or_left (l r : Formula α) (p : Path) :
    (or l r).gateEntries (.left :: p) = l.gateEntries p ++ List.replicate r.andGates 0 := by
  simp [gateEntries, gates, map_inParts, gateEntry, ← length_gates, List.map_const']

theorem gateEntries_or_right (l r : Formula α) (p : Path) :
    (or l r).gateEntries (.right :: p) = List.replicate l.andGates 0 ++ r.gateEntries p := by
  simp [gateEntries, gates, map_inParts, gateEntry, ← length_gates, List.map_const']

/-- What the leaf at `p` gets of a vector that the formula was handed. -/
def inherited (f : Formula α) (vector : List Int32) (p : Path) : List Int32 :=
  if f.Inherits [] p then vector else []

theorem resize_inherited (f : Formula α) {vector : List Int32} {n : ℕ} (h : vector.length ≤ n)
    (p : Path) (extra : ℕ) :
    resize (n + extra) (f.inherited vector p) =
      resize n (f.inherited vector p) ++ List.replicate extra 0 := by
  refine resize_add ?_ extra
  unfold inherited
  split_ifs
  · exact h
  · exact n.zero_le

/-- The rows of a formula, extended beyond all of its columns : the columns before it hold what
the leaf inherits of the vector, those of its conjunctions what their positions say. -/
theorem leafRows_label (f : Formula α) {vector : List Int32} {next : ℕ}
    (h : vector.length ≤ next) (extra : ℕ) :
    (f.label vector next).1.map (fun q => resize (next + f.andGates + extra) q.2) =
      f.leafPaths.map fun p => resize next (f.inherited vector p) ++
        (f.gateEntries p ++ List.replicate extra 0) := by
  -- for one part of a gate, the columns of the other part lie before its own or are extra
  induction f generalizing vector next extra with
  | leaf a =>
    have hrow : (leaf a).inherited vector [] = vector := if_pos inherits_leaf
    simp only [label, leafPaths, List.map_cons, List.map_nil, hrow]
    rw [andGates, Nat.add_zero, resize_add h]
    rfl
  | and l r hl hr =>
    have hleft := @hl (resize next vector ++ [1]) (next + 1) (by simp) (r.andGates + extra)
    have hright := @hr (List.replicate next 0 ++ [-1]) (next + 1 + l.andGates) (by simp) extra
    have hcounter : next + (1 + l.andGates + r.andGates) + extra =
      next + 1 + l.andGates + r.andGates + extra := by omega
    simp only [label_and, snd_label, andGates, leafPaths, map_inParts, List.map_append]
    rw [hcounter]
    congr 1
    · rw [Nat.add_assoc (next + 1 + l.andGates), hleft]
      refine List.map_congr_left fun p _ => ?_
      rw [gateEntries_and_left, ← List.replicate_append_replicate]
      by_cases hp : l.Inherits [] p
      · simp [inherited, hp, resize_of_length_eq]
      · simp [inherited, hp, resize_nil, List.replicate_succ']
    · rw [hright]
      refine List.map_congr_left fun p _ => ?_
      rw [gateEntries_and_right, r.resize_inherited (by simp)]
      by_cases hp : r.Inherits [] p
      · simp [inherited, hp, resize_of_length_eq, resize_nil]
      · simp [inherited, hp, resize_nil, List.replicate_succ']
  | or l r hl hr =>
    have hleft := hl h (r.andGates + extra)
    have hright := @hr vector (next + l.andGates) (by omega) extra
    have hcounter : next + (l.andGates + r.andGates) + extra =
      next + l.andGates + r.andGates + extra := by omega
    simp only [label_or, snd_label, andGates, leafPaths, map_inParts, List.map_append]
    rw [hcounter]
    congr 1
    · rw [Nat.add_assoc (next + l.andGates), hleft]
      refine List.map_congr_left fun p _ => ?_
      rw [gateEntries_or_left, ← List.replicate_append_replicate]
      simp [inherited]
    · rw [hright]
      refine List.map_congr_left fun p _ => ?_
      rw [gateEntries_or_right, r.resize_inherited h]
      simp [inherited]

namespace Compiled

variable {tree : AccessTree} {m : ShareMatrix}

theorem columns_eq (h : tree.Compiled m) : m.columns = 1 + tree.andGates := by
  refine h.columns_eq_greatestWidth.trans (le_antisymm (greatestWidth_le ?_) ?_)
  · have := @length_le_label _ tree [1] 1 le_rfl
    rw [snd_label] at this
    exact List.forall_mem_map.mpr this
  · obtain ⟨q, hq, hlength⟩ := @exists_length_eq_label _ tree [1] 1 le_rfl (.inl rfl)
    rw [← hlength]
    exact length_le_greatestWidth (List.mem_map_of_mem hq)

/-- The rows in closed form. -/
theorem rows_eq_leafRows (h : tree.Compiled m) : m.rows = tree.leafPaths.map tree.leafRow := by
  rw [h.rows_eq, h.columns_eq]
  refine (@leafRows_label _ tree [1] 1 le_rfl 0).trans (List.map_congr_left fun p _ => ?_)
  unfold inherited leafRow
  split_ifs <;> simp [resize]

end Compiled

/-! ## The shape of a matrix -/

section

variable {f : Formula α} {g p : Path}

/-- A leaf is in one part of a gate only. -/
theorem Inherits.not_right (h : f.Inherits (g ++ [.left]) p) : ¬f.Inherits (g ++ [.right]) p := by
  intro hright
  have hsame := List.prefix_of_prefix_length_le h.1 hright.1 (by simp)
  have heq := hsame.eq_of_length (by simp)
  simp at heq

theorem gateEntry_eq_one_iff : f.gateEntry g p = 1 ↔ f.Inherits (g ++ [.left]) p := by
  unfold gateEntry
  split_ifs with hleft hright <;> simp [hleft]

theorem gateEntry_eq_neg_one_iff : f.gateEntry g p = -1 ↔ f.Inherits (g ++ [.right]) p := by
  unfold gateEntry
  split_ifs with hleft hright
  · simp [hleft.not_right]
  · simp [hright]
  · simp [hright]

theorem gateEntry_eq_zero_iff :
    f.gateEntry g p = 0 ↔ ¬f.Inherits (g ++ [.left]) p ∧ ¬f.Inherits (g ++ [.right]) p := by
  unfold gateEntry
  split_ifs with hleft hright
  · simp [hleft]
  · simp [hleft, hright]
  · simp [hleft, hright]

theorem leafRow_entries : ∀ e ∈ f.leafRow p, e = -1 ∨ e = 0 ∨ e = 1 := by
  intro e he
  rcases List.mem_cons.mp he with rfl | he
  · split_ifs <;> simp
  · obtain ⟨g, -, rfl⟩ := List.mem_map.mp he
    unfold gateEntry
    split_ifs <;> simp

end

/-- What the position of a leaf says about the entries of its row. Column 0 belongs to the root,
column `k + 1` to conjunction `k` in preorder. -/
structure RowShape (tree : AccessTree) (p : Path) (row : List Int32) : Prop where
  /-- The leaf inherits from the root or not. -/
  root : row[0]? = some (if tree.Inherits [] p then 1 else 0)
  /-- The leaf inherits from the left part of the conjunction. -/
  one_iff : ∀ (k : ℕ) (g : Path), tree.gates[k]? = some g →
    (row[k + 1]? = some 1 ↔ tree.Inherits (g ++ [.left]) p)
  /-- The leaf inherits from the right part of the conjunction. -/
  neg_one_iff : ∀ (k : ℕ) (g : Path), tree.gates[k]? = some g →
    (row[k + 1]? = some (-1) ↔ tree.Inherits (g ++ [.right]) p)
  /-- The leaf inherits from neither part. -/
  zero_iff : ∀ (k : ℕ) (g : Path), tree.gates[k]? = some g →
    (row[k + 1]? = some 0 ↔
      ¬tree.Inherits (g ++ [.left]) p ∧ ¬tree.Inherits (g ++ [.right]) p)

theorem rowShape_leafRow (tree : AccessTree) (p : Path) : tree.RowShape p (tree.leafRow p) := by
  have hentry : ∀ (k : ℕ) (g : Path) (e : Int32), tree.gates[k]? = some g →
      ((tree.leafRow p)[k + 1]? = some e ↔ tree.gateEntry g p = e) := by
    intro k g e hg
    rw [leafRow, List.getElem?_cons_succ, gateEntries, List.getElem?_map, hg, Option.map_some,
      Option.some_inj]
  exact
    { root := rfl
      one_iff := fun k g hg => (hentry k g 1 hg).trans gateEntry_eq_one_iff
      neg_one_iff := fun k g hg => (hentry k g (-1) hg).trans gateEntry_eq_neg_one_iff
      zero_iff := fun k g hg => (hentry k g 0 hg).trans gateEntry_eq_zero_iff }

/-- An access tree with distinct leaves compiles to a matrix with one row for each leaf, in order,
and one column for the root and each conjunction. The entry of a leaf in a column says whether,
and through which part, it inherits from the node that the column belongs to. -/
theorem compile_shape {tree : AccessTree} (h : tree.leaves.Nodup) :
    ∃ m, tree.compile = .ok m ∧
      m.labels = tree.leaves ∧ m.rowCount = tree.leaves.length ∧
      m.columns = 1 + tree.andGates ∧
      (∀ row ∈ m.rows, row.length = m.columns ∧ ∀ e ∈ row, e = -1 ∨ e = 0 ∨ e = 1) ∧
      (∀ g, g ∈ tree.gates ↔ ∃ l r, tree.node? g = some (.and l r)) ∧
      tree.gates.Pairwise (· < ·) ∧ tree.gates.Nodup ∧ tree.gates.length = tree.andGates ∧
      (∀ p id, tree.node? p = some (.leaf id) →
        ∃ i row, m.label? i = some id ∧ m.row? i = some row ∧ tree.RowShape p row) ∧
      (Chained tree.gates → m.columns ≤ tree.depth + 1) := by
  obtain ⟨m, hm⟩ := exists_compiled h
  refine ⟨m, hm.compile_eq, hm.labels_eq, hm.rowCount_eq, hm.columns_eq, fun row hrow => ?_,
    fun g => mem_gates_iff, tree.pairwise_gates, tree.nodup_gates, tree.length_gates,
    fun p id hp => ?_, fun hchained => ?_⟩
  · refine ⟨m.rectangular row hrow, ?_⟩
    rw [hm.rows_eq_leafRows] at hrow
    obtain ⟨p, -, rfl⟩ := List.mem_map.mp hrow
    exact leafRow_entries
  · obtain ⟨i, hpath, hleaf⟩ := exists_leaves_getElem? hp
    refine ⟨i, tree.leafRow p, ?_, ?_, tree.rowShape_leafRow p⟩
    · rw [ShareMatrix.label?, hm.labels_eq, hleaf]
    · rw [ShareMatrix.row?, hm.rows_eq_leafRows, List.getElem?_map, hpath, Option.map_some]
  · rw [hm.columns_eq]
    have := andGates_le_depth hchained
    omega

/-- Two conjunctions, one below the other. -/
def nestedTree : AccessTree :=
  .and (.leaf 0) (.or (.leaf 3) (.and (.leaf 1) (.leaf 2)))

/-- Leaf 1 goes right at the first conjunction and left at the second one. -/
theorem compile_shape_nested :
    nestedTree.leaves.Nodup ∧ ∃ m, nestedTree.compile = .ok m ∧ m.columns = 3 ∧
      ∃ i row, m.label? i = some 1 ∧ m.row? i = some row ∧ row[2]? = some 1 := by
  have hnodup : nestedTree.leaves.Nodup := by decide
  obtain ⟨m, hm, -, -, hcolumns, -, -, -, -, -, hrows, -⟩ := compile_shape hnodup
  obtain ⟨i, row, hlabel, hrow, hshape⟩ := hrows [.right, .right, .left] 1 rfl
  refine ⟨hnodup, m, hm, hcolumns, i, row, hlabel, hrow, ?_⟩
  exact (hshape.one_iff 1 [.right, .right] rfl).mpr (by decide)

end Formula

end AttributeEncryption
