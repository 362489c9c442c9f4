import AttributeEncryption.Proofs.SpanProgram.Shape
import AttributeEncryption.Proofs.SpanProgram.Shares

/-!
# Sharing from the root down

The shares of an access tree without a matrix : a value is handed down from the root, and every
conjunction splits it by a mask of its own (`Formula.distribute`). Inheriting says what a leaf
gets (`distribute_eq_map`), and the row of a leaf says the same, so the matrix gives the same
shares (`shares_eq_distribute`).
-/

open scoped Fin.CommRing

namespace AttributeEncryption

namespace Formula

/-! ## Handing down -/

/-- The shares of the leaves from left to right, where the root has the given value and the
conjunction at `g` the mask `mask g`. A disjunction hands its value to both parts ; a conjunction
adds its mask for the left part and hands its negative to the right one. -/
def distribute {α : Type} : Formula α → (Path → Scalar) → Scalar → List Scalar
  | leaf _, _, value => [value]
  | and l r, mask, value =>
    l.distribute (fun g => mask (.left :: g)) (value + mask []) ++
      r.distribute (fun g => mask (.right :: g)) (-mask [])
  | or l r, mask, value =>
    l.distribute (fun g => mask (.left :: g)) value ++
      r.distribute (fun g => mask (.right :: g)) value

/-- A leaf has what it inherits from the root and from the conjunctions. -/
theorem distribute_eq_map {α : Type} (f : Formula α) (mask : Path → Scalar) (value : Scalar) :
    f.distribute mask value = f.leafPaths.map fun p =>
      (if f.Inherits [] p then value else 0) + dot (f.gateEntries p) (f.gates.map mask) := by
  induction f generalizing mask value with
  | leaf a => simp [distribute, leafPaths, gateEntries, gates]
  | and l r hl hr =>
    rw [distribute, leafPaths, map_inParts, hl, hr]
    congr 1
    · refine List.map_congr_left fun p _ => ?_
      rw [gateEntries_and_left, gates, List.map_cons, map_inParts, dot_cons,
        dot_append (by simp [length_gateEntries, length_gates]), dot_replicate_zero]
      by_cases hp : l.Inherits [] p
      · simp [hp, add_assoc]
      · simp [hp]
    · refine List.map_congr_left fun p _ => ?_
      rw [gateEntries_and_right, gates, List.map_cons, map_inParts, dot_cons,
        dot_append (by simp [length_gates]), dot_replicate_zero]
      by_cases hp : r.Inherits [] p
      · simp [hp]
      · simp [hp]
  | or l r hl hr =>
    rw [distribute, leafPaths, map_inParts, hl, hr]
    congr 1
    · refine List.map_congr_left fun p _ => ?_
      rw [gateEntries_or_left, gates, map_inParts,
        dot_append (by simp [length_gateEntries, length_gates]), dot_replicate_zero]
      simp
    · refine List.map_congr_left fun p _ => ?_
      rw [gateEntries_or_right, gates, map_inParts,
        dot_append (by simp [length_gates]), dot_replicate_zero]
      simp

/-- The masks that a vector holds : entry `k` is the mask of conjunction `k` in preorder, counted
from 1. -/
def maskOf {α : Type} (f : Formula α) (vector : List Scalar) (g : Path) : Scalar :=
  vector.getD (f.gates.idxOf g + 1) 0

/-- A vector with one entry for the root and each conjunction is the value of the root and the
masks in preorder. -/
theorem eq_cons_map_maskOf {α : Type} {f : Formula α} {vector : List Scalar}
    (h : vector.length = 1 + f.andGates) :
    vector = vector.getD 0 0 :: f.gates.map (f.maskOf vector) := by
  cases vector with
  | nil =>
    rw [List.length_nil] at h
    omega
  | cons value rest =>
    have hlength : rest.length = f.gates.length := by
      rw [List.length_cons] at h
      rw [length_gates]
      omega
    refine congrArg (value :: ·) (List.ext_getElem (by simpa using hlength) fun k hk hk' => ?_)
    have hidx : f.gates.idxOf f.gates[k] = k := f.nodup_gates.idxOf_getElem k (hlength ▸ hk)
    rw [List.getElem_map, maskOf, hidx, List.getD_cons_succ, List.getD_eq_getElem _ _ hk]

theorem dot_leafRow {α : Type} (f : Formula α) (value : Scalar) (masks : List Scalar) (p : Path) :
    dot (f.leafRow p) (value :: masks) =
      (if f.Inherits [] p then value else 0) + dot (f.gateEntries p) masks := by
  rw [leafRow, dot_cons]
  split_ifs
  · rw [signedMultiple_one]
  · rw [signedMultiple_zero]

/-- An access tree with distinct leaves compiles, and its matrix gives every leaf the share that
is handed down to it from the root. A share is the sum of signed multiples of the entries of the
vector, and sharing fails only for a vector that is not as long as every row is wide. -/
theorem shares_eq_distribute :
    (∀ tree : AccessTree, tree.leaves.Nodup → ∃ m, tree.compile = .ok m ∧
      m.labels = tree.leaves ∧
      ∀ vector : List Scalar, vector.length = m.columns →
        shares m.rows vector =
          .ok (tree.distribute (tree.maskOf vector) (vector.getD 0 0))) ∧
    (∀ (row : List Int32) (vector : List Scalar), row.length = vector.length →
      share vector row = .ok (List.zipWith signedMultiple row vector).sum) ∧
    ∀ (rows : List (List Int32)) (vector : List Scalar),
      (∃ cause, shares rows vector = .error cause) ↔
        ∃ row ∈ rows, row.length ≠ vector.length := by
  refine ⟨fun tree h => ?_, fun row vector h => ?_, shares_eq_error_iff⟩
  · obtain ⟨m, hm⟩ := exists_compiled h
    refine ⟨m, hm.compile_eq, hm.labels_eq, fun vector hvector => ?_⟩
    have hrows : ∀ row ∈ m.rows, row.length = vector.length := fun row hrow =>
      (m.rectangular row hrow).trans hvector.symm
    have hmasks := eq_cons_map_maskOf (hvector.trans hm.columns_eq)
    rw [shares_eq_ok hrows, hm.rows_eq_leafRows, List.map_map, distribute_eq_map]
    refine congrArg Except.ok (List.map_congr_left fun p _ => ?_)
    rw [Function.comp_apply, ← dot_leafRow, ← hmasks]
  · rw [share, if_pos h, dot_eq_sum_zipWith]

/-- Leaf 1 goes right at the first conjunction and left at the second one, so its share is the
negative of the first mask plus the second mask. -/
theorem shares_nested :
    nestedTree.leaves.Nodup ∧ ∃ m, nestedTree.compile = .ok m ∧
      ([5, 7, 11] : List Scalar).length = m.columns ∧
      shares m.rows [5, 7, 11] = .ok [5 + 7, -7, -7 + 11, -11] := by
  have hnodup : nestedTree.leaves.Nodup := by decide
  obtain ⟨m, hm, -, hshares⟩ := shares_eq_distribute.1 nestedTree hnodup
  obtain ⟨m', hm'⟩ := exists_compiled hnodup
  obtain rfl : m = m' := Except.ok.inj (hm.symm.trans hm'.compile_eq)
  have hcolumns : ([5, 7, 11] : List Scalar).length = m.columns := hm'.columns_eq.symm
  exact ⟨hnodup, m, hm, hcolumns, hshares [5, 7, 11] hcolumns⟩

end Formula

end AttributeEncryption
