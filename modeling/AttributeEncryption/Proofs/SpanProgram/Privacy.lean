import AttributeEncryption.Proofs.SpanProgram.Combination
import AttributeEncryption.Proofs.SpanProgram.Shares

/-!
# Privacy of shares

If the held leaves do not satisfy an access tree, their shares say nothing about the secret.
The vectors with one secret correspond to those with another such that the held shares are
the same (`shares_private`). The correspondence adds a multiple of the vector that
separates the held rows from the target (`exists_orthogonal`).
-/

open scoped Fin.CommRing

namespace AttributeEncryption

/-- A vector of scalars that begins with the secret. -/
def SecretVector (columns : ℕ) (secret : Scalar) : Type :=
  {v : List Scalar // v.length = columns ∧ v.head? = some secret}

/-- The vector plus a multiple of another one. -/
def shift (k : ℕ → ℤ) (factor : Scalar) (vector : List Scalar) : List Scalar :=
  vector.mapIdx fun j x => x + factor * (k j : Scalar)

@[simp] theorem length_shift (k : ℕ → ℤ) (factor : Scalar) (vector : List Scalar) :
    (shift k factor vector).length = vector.length :=
  List.length_mapIdx

theorem getD_shift {k : ℕ → ℤ} {factor : Scalar} {vector : List Scalar} {j : ℕ}
    (h : j < vector.length) :
    (shift k factor vector).getD j 0 = vector.getD j 0 + factor * (k j : Scalar) := by
  rw [List.getD_eq_getElem _ _ (by simpa using h), List.getD_eq_getElem _ _ h]
  exact List.getElem_mapIdx

theorem shift_neg_shift (k : ℕ → ℤ) (factor : Scalar) (vector : List Scalar) :
    shift k (-factor) (shift k factor vector) = vector := by
  refine List.ext_getElem (by simp) fun j h h' => ?_
  simp [shift, neg_mul]

/-- A share changes by the product of the row with what was added. -/
theorem dot_shift {row : List Int32} {vector : List Scalar} (k : ℕ → ℤ) (factor : Scalar)
    (h : row.length = vector.length) :
    dot row (shift k factor vector) = dot row vector + factor * (product row k : Scalar) := by
  have hterm (j : ℕ) (hj : j ∈ Finset.range row.length) :
      (rowEntries row j : Scalar) * (shift k factor vector).getD j 0 =
        (rowEntries row j : Scalar) * vector.getD j 0 +
          factor * ((rowEntries row j * k j : ℤ) : Scalar) := by
    rw [getD_shift (h ▸ Finset.mem_range.mp hj), Int.cast_mul]
    ring
  rw [dot_eq_sum (by simpa using h), dot_eq_sum h, Finset.sum_congr rfl hterm,
    Finset.sum_add_distrib, ← Finset.mul_sum, product, Int.cast_sum]

/-- Adding a multiple of a vector that begins with 1 leads from one secret to any other. -/
def shiftSecret {k : ℕ → ℤ} (hk : k 0 = 1) (columns : ℕ) (secret secret' : Scalar) :
    SecretVector columns secret ≃ SecretVector columns secret' where
  toFun v := ⟨shift k (secret' - secret) v.1, by simp [v.2.1], by
    obtain ⟨_ | ⟨x, rest⟩, -, hx⟩ := v
    · cases hx
    · cases hx
      simp [shift, hk]⟩
  invFun v := ⟨shift k (-(secret' - secret)) v.1, by simp [v.2.1], by
    obtain ⟨_ | ⟨x, rest⟩, -, hx⟩ := v
    · cases hx
    · cases hx
      simp [shift, hk]⟩
  left_inv v := Subtype.ext (shift_neg_shift k _ v.1)
  right_inv v := Subtype.ext (by
    have h := shift_neg_shift k (-(secret' - secret)) v.1
    rwa [neg_neg] at h)

/-- If the held leaves do not satisfy the tree, the vectors with one secret correspond to
those with any other such that every held share is the same. -/
theorem Formula.shares_private (tree : AccessTree) (held : UInt32 → Bool)
    (hnodup : tree.leaves.Nodup) (hfails : tree.holds held = false) :
    ∃ m, tree.compile = .ok m ∧ ∀ secret secret' : Scalar,
      ∃ f : SecretVector m.columns secret ≃ SecretVector m.columns secret', ∀ v,
        ∃ own other, shares m.rows v.1 = .ok own ∧ shares m.rows (f v).1 = .ok other ∧
          own.length = m.rowCount ∧ other.length = m.rowCount ∧
          ∀ row id, m.label? row = some id → held id = true → own[row]? = other[row]? := by
  obtain ⟨m, hm⟩ := exists_compiled hnodup
  obtain ⟨k, hk, hrows⟩ := exists_orthogonal hfails
  refine ⟨m, hm.compile_eq, fun secret secret' => ⟨shiftSecret hk m.columns secret secret',
    fun v => ?_⟩⟩
  have hwidth (v : List Scalar) (hv : v.length = m.columns) :
      ∀ row ∈ m.rows, row.length = v.length :=
    fun row hrow => (m.rectangular row hrow).trans hv.symm
  refine ⟨_, _, shares_eq_ok (hwidth v.1 v.2.1),
    shares_eq_ok (hwidth _ (shiftSecret hk m.columns secret secret' v).2.1), List.length_map _,
    List.length_map _, fun row id hid hheld => ?_⟩
  rw [hm.label?_eq, Option.map_eq_some_iff] at hid
  obtain ⟨p, hp, rfl⟩ := hid
  have hmem := List.mem_of_getElem? hp
  -- the held row is orthogonal to what was added
  have horthogonal : product (resize m.columns p.2) k = 0 := by
    rw [product_eq_sum (length_resize _ _).le, rowEntries_resize (hm.length_le p hmem),
      ← product_eq_sum (hm.length_le p hmem)]
    exact hrows p hmem hheld
  have hrow : m.rows[row]? = some (resize m.columns p.2) := by
    rw [hm.rows_eq, List.getElem?_map, hp]
    rfl
  have hdot : dot (resize m.columns p.2) (shift k (secret' - secret) v.1) =
      dot (resize m.columns p.2) v.1 := by
    rw [dot_shift _ _ (by simp [v.2.1]), horthogonal, Int.cast_zero, mul_zero, add_zero]
  rw [List.getElem?_map, List.getElem?_map, hrow]
  exact congrArg some hdot.symm

/-- Of `1 ∧ 2`, the share of leaf 1 may belong to the secret 3 as well as to 8. -/
theorem Formula.share_of_conjunct_private :
    ∃ m, compile (.and (.leaf 1) (.leaf 2)) = .ok m ∧
      ∃ f : SecretVector m.columns 3 ≃ SecretVector m.columns 8, ∀ v,
        ∃ own other, shares m.rows v.1 = .ok own ∧ shares m.rows (f v).1 = .ok other ∧
          own[0]? = other[0]? := by
  obtain ⟨m, hm, h⟩ := shares_private (.and (.leaf 1) (.leaf 2)) (· == 1) (by decide) (by decide)
  have hlabels : (compile (.and (.leaf 1) (.leaf 2))).map ShareMatrix.labels = .ok [1, 2] := rfl
  have hlabel : m.label? 0 = some 1 := by
    rw [hm] at hlabels
    rw [ShareMatrix.label?, Except.ok.inj hlabels]
    rfl
  obtain ⟨f, hf⟩ := h 3 8
  refine ⟨m, hm, f, fun v => ?_⟩
  obtain ⟨own, other, hown, hother, -, -, heq⟩ := hf v
  exact ⟨own, other, hown, hother, heq 0 1 hlabel (by decide)⟩

end AttributeEncryption
