import Mathlib.Algebra.Order.Ring.Int
import Mathlib.LinearAlgebra.Matrix.Determinant.TotallyUnimodular
import Mathlib.Tactic.Ring

/-!
# Unimodular sets of vectors

A set of integer vectors is unimodular if every square matrix of entries of its vectors has
determinant 0, 1 or -1. The entries are then 0, 1 and -1, and clearing a column by a vector
of the set that has an entry there keeps the set unimodular (`Unimodular.clear`). So an
elimination that starts from such a set needs no pivots but 1 and -1.

Splitting a vector over a column that no vector of the set uses keeps it unimodular as well
(`Unimodular.split`). That is what a conjunction does with its vector.
-/

namespace AttributeEncryption

open Matrix

variable {κ : Type}

/-- Every square matrix of entries of the vectors has determinant 0, 1 or -1. -/
def Unimodular (s : Set (κ → ℤ)) : Prop :=
  (Matrix.of fun (v : s) (j : κ) => v.1 j).IsTotallyUnimodular

theorem mem_signs_iff {n : ℤ} : n ∈ Set.range (SignType.cast : SignType → ℤ) ↔ |n| ≤ 1 := by
  refine ⟨?_, fun h => ?_⟩
  · rintro ⟨s, rfl⟩
    cases s <;> decide
  · have := abs_le.mp h
    obtain rfl | rfl | rfl : n = -1 ∨ n = 0 ∨ n = 1 := by omega
    · exact ⟨-1, by simp⟩
    · exact ⟨0, by simp⟩
    · exact ⟨1, by simp⟩

namespace Unimodular

variable {s t : Set (κ → ℤ)}

/-! ## Families of vectors -/

/-- Vectors from a unimodular set are the rows of a totally unimodular matrix. -/
theorem isTotallyUnimodular {ι : Type} (h : Unimodular s) {f : ι → κ → ℤ} (hf : ∀ i, f i ∈ s) :
    (Matrix.of f).IsTotallyUnimodular := by
  unfold Unimodular at h
  exact h.submatrix (fun i => ⟨f i, hf i⟩) id

/-- Rows of a totally unimodular matrix are a unimodular set. -/
theorem of_rows {ι : Type} {A : Matrix ι κ ℤ} (h : A.IsTotallyUnimodular)
    (hs : ∀ v ∈ s, ∃ i, A i = v) : Unimodular s := by
  choose row hrow using fun v : s => hs v.1 v.2
  have hA : A.submatrix row id = Matrix.of fun (v : s) j => v.1 j := by
    ext v j
    exact congrFun (hrow v) j
  unfold Unimodular
  rw [← hA]
  exact h.submatrix row id

/-- It is enough to look at finite square matrices of entries. -/
theorem iff_abs_det : Unimodular s ↔ ∀ (ι : Type) [Fintype ι] [DecidableEq ι]
    (f : ι → κ → ℤ) (g : ι → κ), (∀ i, f i ∈ s) → |(Matrix.of fun i j => f i (g j)).det| ≤ 1 := by
  unfold Unimodular
  rw [isTotallyUnimodular_iff_fintype.{0}]
  refine ⟨fun h ι _ _ f g hf => mem_signs_iff.mp (h ι (fun i => ⟨f i, hf i⟩) g),
    fun h ι _ _ f g => mem_signs_iff.mpr (h ι (fun i => (f i).1) g fun i => (f i).2)⟩

theorem mono (h : Unimodular t) (hst : s ⊆ t) : Unimodular s :=
  of_rows (h.isTotallyUnimodular fun v : t => v.2) fun v hv => ⟨⟨v, hst hv⟩, rfl⟩

theorem empty : Unimodular (∅ : Set (κ → ℤ)) :=
  emptyRows_isTotallyUnimodular _

/-- The entries are 0, 1 and -1. -/
theorem abs_le_one (h : Unimodular s) {v : κ → ℤ} (hv : v ∈ s) (j : κ) : |v j| ≤ 1 :=
  mem_signs_iff.mp (h.apply ⟨v, hv⟩ j)

/-- Columns may be left out, put in another order and repeated. -/
theorem comp {κ' : Type} (h : Unimodular s) (g : κ' → κ) : Unimodular ((· ∘ g) '' s) := by
  refine of_rows (h.submatrix id g) ?_
  rintro _ ⟨v, hv, rfl⟩
  exact ⟨⟨v, hv⟩, rfl⟩

/-- A vector with at most one entry, which is 1 or -1, may be added. -/
theorem insert_single [DecidableEq κ] (h : Unimodular s) (c : κ) (sign : SignType) :
    Unimodular (insert (Pi.single c (sign : ℤ)) s) := by
  have hrows := IsTotallyUnimodular.fromRows_unitlike h
    (B := Matrix.of fun _ : Unit => Pi.single c (sign : ℤ)) fun _ _ => ⟨c, sign, rfl⟩
  refine of_rows hrows ?_
  rintro v (rfl | hv)
  · exact ⟨Sum.inr (), rfl⟩
  · exact ⟨Sum.inl ⟨v, hv⟩, rfl⟩

/-! ## Splitting a vector -/

/-- A column that no vector uses may be given an entry in one of them. -/
theorem insert_add_single [DecidableEq κ] {v : κ → ℤ} {c : κ} (h : Unimodular (insert v s))
    (hv : v c = 0) (hs : ∀ u ∈ s, u c = 0) : Unimodular (insert (v + Pi.single c 1) s) := by
  classical
  -- the vectors with a further column, 1 for `v` and 0 for the others
  let A : Matrix (Option s) κ ℤ := Matrix.of fun i => i.elim v Subtype.val
  have hA : A.IsTotallyUnimodular := by
    refine h.isTotallyUnimodular fun i => ?_
    cases i with
    | none => exact Set.mem_insert _ _
    | some u => exact Set.mem_insert_of_mem _ u.2
  have hcolumn := (hA.transpose.fromRows_unitlike
    (B := Matrix.of fun _ : Unit => Pi.single none 1) fun _ _ => ⟨none, 1, by simp; rfl⟩).transpose
  -- it takes the place of column `c`
  refine of_rows (hcolumn.submatrix id fun j => if j = c then Sum.inr () else Sum.inl j) ?_
  rintro u (rfl | hu)
  · refine ⟨none, funext fun j => ?_⟩
    by_cases hj : j = c
    · subst hj
      simp [hv]
    · simp [hj, A]
  · refine ⟨some ⟨u, hu⟩, funext fun j => ?_⟩
    by_cases hj : j = c
    · subst hj
      simp [hs u hu]
    · simp [hj, A]

/-- A vector may be split in two over a column that no vector uses. -/
theorem split [DecidableEq κ] {v : κ → ℤ} {c : κ} (h : Unimodular (insert v s)) (hv : v c = 0)
    (hs : ∀ u ∈ s, u c = 0) :
    Unimodular (insert (v + Pi.single c 1) (insert (Pi.single c (-1)) s)) := by
  rw [Set.insert_comm]
  exact (h.insert_add_single hv hs).insert_single c (-1)

/-! ## Clearing a column -/

/-- Multiples of a vector may be added to the other rows of a matrix that has it as a row. -/
theorem abs_det_of_add_smul {ι : Type} [Fintype ι] [DecidableEq ι] (h : Unimodular s)
    {π : κ → ℤ} (f f₀ : ι → κ → ℤ) (g : ι → κ) (factor : ι → ℤ) (k : ι) (hf₀ : ∀ i, f₀ i ∈ s)
    (hk : f₀ k = π) (hfactor : factor k = 0) (hf : ∀ i, f i = f₀ i + factor i • π) :
    |(Matrix.of fun i j => f i (g j)).det| ≤ 1 := by
  rw [det_eq_of_forall_row_eq_smul_add_const (B := Matrix.of fun i j => f₀ i (g j)) factor k
    hfactor]
  · exact iff_abs_det.mp h ι f₀ g hf₀
  · intro i j
    simp [hf, hk]

/-- A vector with an entry in column `c` may be used to clear that column. -/
theorem clear {π : κ → ℤ} {c : κ} (h : Unimodular s) (hπ : π ∈ s) (hc : π c ≠ 0) :
    Unimodular (insert π ((fun v => v - (v c * π c) • π) '' s)) := by
  classical
  have habs : |π c| = 1 := le_antisymm (h.abs_le_one hπ c) (Int.one_le_abs hc)
  have hunit : π c * π c = 1 := by rw [← abs_mul_abs_self, habs, one_mul]
  -- every vector is one of `s` up to a multiple of `π`, and 0 in column `c` unless it is `π`
  have hrow (v : κ → ℤ) (hv : v ∈ insert π ((fun v => v - (v c * π c) • π) '' s)) :
      ∃ u ∈ s, ∃ k : ℤ, v = u + k • π ∧ (v = π → u = π ∧ k = 0) ∧ (v ≠ π → v c = 0) := by
    by_cases hvπ : v = π
    · exact ⟨π, hπ, 0, by simp [hvπ], fun _ => ⟨rfl, rfl⟩, fun h => absurd hvπ h⟩
    · obtain ⟨u, hu, rfl⟩ := hv.resolve_left hvπ
      refine ⟨u, hu, -(u c * π c), by rw [neg_smul, ← sub_eq_add_neg], fun h => absurd h hvπ,
        fun _ => ?_⟩
      simp [mul_assoc, hunit]
  rw [iff_abs_det]
  intro ι _ _ f g hf
  choose f₀ hf₀ factor hsum hself hclear using fun i => hrow (f i) (hf i)
  by_cases hk : ∃ k, f k = π
  · obtain ⟨k, hk⟩ := hk
    exact h.abs_det_of_add_smul f f₀ g factor k hf₀ (hself k hk).1 (hself k hk).2 hsum
  · -- `π` and column `c` are put in front, which changes the determinant by a sign
    have hne (i : ι) : f i ≠ π := fun hi => hk ⟨i, hi⟩
    have hborder := h.abs_det_of_add_smul (Sum.elim (fun _ : Unit => π) f)
      (Sum.elim (fun _ : Unit => π) f₀) (Sum.elim (fun _ : Unit => c) g) (Sum.elim 0 factor)
      (Sum.inl ()) (by rintro (_ | i); exacts [hπ, hf₀ i]) rfl rfl
      (by rintro (_ | i) <;> simp [hsum])
    have hblocks : (Matrix.of fun i j => Sum.elim (fun _ : Unit => π) f i
        (Sum.elim (fun _ : Unit => c) g j)) = fromBlocks (Matrix.of fun _ _ => π c)
        (Matrix.of fun _ j => π (g j)) 0 (Matrix.of fun i j => f i (g j)) := by
      ext (i | i) (j | j)
      · rfl
      · rfl
      · exact hclear i (hne i)
      · rfl
    rw [hblocks, det_fromBlocks_zero₂₁, det_unique, abs_mul] at hborder
    simpa [habs] using hborder

end Unimodular

end AttributeEncryption
