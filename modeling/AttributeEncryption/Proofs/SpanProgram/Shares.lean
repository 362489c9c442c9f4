import AttributeEncryption.Proofs.Elimination.Span
import AttributeEncryption.Proofs.Results
import AttributeEncryption.Proofs.Scalars
import AttributeEncryption.Sharing.Shares

/-!
# Sums of shares

A share is a sum of signed multiples (`dot_eq_sum_zipWith`), that is a product in the ring of
scalars (`dot_eq_sum`), and only a vector of another length than the rows has none
(`shares_eq_error_iff`). So weighted sums of shares are shares of weighted sums of rows
(`sum_weighted_dot`). If the rows combine to a multiple of the target, the shares combine to the
same multiple of the secret (`sum_weighted_dot_target`).
-/

open scoped Fin.CommRing

namespace AttributeEncryption

/-! ## Products of rows -/

/-- An entry times a value : the negative of a multiple, where the entry is negative. -/
def signedMultiple (entry : Int32) (value : Scalar) : Scalar :=
  if entry.toInt < 0 then -(entry.toInt.natAbs • value) else entry.toInt.natAbs • value

theorem ofInt_mul_eq_signedMultiple (entry : Int32) (value : Scalar) :
    Scalar.ofInt entry.toInt * value = signedMultiple entry value := by
  unfold Scalar.ofInt signedMultiple
  rw [Scalar.ofNat_eq_cast, nsmul_eq_mul]
  split_ifs
  · exact neg_mul _ _
  · rfl

theorem dot_eq_sum_zipWith (row : List Int32) (vector : List Scalar) :
    dot row vector = (List.zipWith signedMultiple row vector).sum := by
  have hmap : List.zipWith signedMultiple row vector =
      (row.zip vector).map fun p => Scalar.ofInt p.1.toInt * p.2 := by
    rw [List.zip, List.map_zipWith]
    simp only [ofInt_mul_eq_signedMultiple]
  rw [hmap, List.sum_eq_foldl, List.foldl_map]
  rfl

@[simp] theorem dot_nil (vector : List Scalar) : dot [] vector = 0 :=
  rfl

theorem dot_cons (entry : Int32) (row : List Int32) (value : Scalar) (vector : List Scalar) :
    dot (entry :: row) (value :: vector) = signedMultiple entry value + dot row vector := by
  rw [dot_eq_sum_zipWith, dot_eq_sum_zipWith, List.zipWith_cons_cons, List.sum_cons]

theorem dot_append {row row' : List Int32} {vector vector' : List Scalar}
    (h : row.length = vector.length) :
    dot (row ++ row') (vector ++ vector') = dot row vector + dot row' vector' := by
  rw [dot_eq_sum_zipWith, List.zipWith_append h, List.sum_append, ← dot_eq_sum_zipWith,
    ← dot_eq_sum_zipWith]

@[simp] theorem signedMultiple_zero (value : Scalar) : signedMultiple 0 value = 0 := by
  simp [signedMultiple]

@[simp] theorem signedMultiple_one (value : Scalar) : signedMultiple 1 value = value :=
  one_nsmul value

@[simp] theorem signedMultiple_neg_one (value : Scalar) : signedMultiple (-1) value = -value :=
  congrArg Neg.neg (one_nsmul value)

@[simp] theorem dot_replicate_zero (n : ℕ) (vector : List Scalar) :
    dot (List.replicate n 0) vector = 0 := by
  induction n generalizing vector with
  | zero => rfl
  | succ n ih =>
    cases vector with
    | nil => rfl
    | cons value vector => rw [List.replicate_succ, dot_cons, signedMultiple_zero, ih, add_zero]

/-- The product of a row and a vector is the sum over their entries. -/
theorem dot_eq_sum {row : List Int32} {vector : List Scalar} (h : row.length = vector.length) :
    dot row vector =
      ∑ j ∈ Finset.range row.length, (rowEntries row j : Scalar) * vector.getD j 0 := by
  induction row generalizing vector with
  | nil => simp
  | cons entry row ih =>
    cases vector with
    | nil => simp at h
    | cons value vector =>
      rw [dot_cons, ih (by simpa using h), List.length_cons, Finset.sum_range_succ', add_comm,
        ← ofInt_mul_eq_signedMultiple, Scalar.ofInt_eq_cast]
      rfl

/-! ## Shares -/

/-- A vector as long as the rows are wide has a share for each row. -/
theorem shares_eq_ok {rows : List (List Int32)} {vector : List Scalar}
    (h : ∀ row ∈ rows, row.length = vector.length) :
    shares rows vector = .ok (rows.map (dot · vector)) :=
  mapM_eq_ok fun row hrow => if_pos (h row hrow)

/-- Sharing fails exactly if some row is not as wide as the vector is long. -/
theorem shares_eq_error_iff (rows : List (List Int32)) (vector : List Scalar) :
    (∃ cause, shares rows vector = .error cause) ↔ ∃ row ∈ rows, row.length ≠ vector.length := by
  constructor
  · rintro ⟨cause, h⟩
    obtain ⟨row, hrow, hshare⟩ := exists_of_mapM_eq_error h
    refine ⟨row, hrow, fun hlength => ?_⟩
    rw [share, if_pos hlength] at hshare
    cases hshare
  · rintro ⟨row, hrow, hlength⟩
    cases h : shares rows vector with
    | error cause => exact ⟨cause, rfl⟩
    | ok values =>
      obtain ⟨i, hi, rfl⟩ := List.getElem_of_mem hrow
      have hall := forall₂_of_mapM_eq_ok h
      have hshare := hall.get hi (hall.length_eq ▸ hi)
      rw [List.get_eq_getElem, share, if_neg hlength] at hshare
      cases hshare

/-! ## Weighted sums -/

/-- The weighted sum of the shares is the product with the weighted sum of the rows. -/
theorem sum_weighted_dot {vector : List Scalar} :
    ∀ {weights : List ℤ} {rows : List (List Int32)}, (∀ row ∈ rows, row.length = vector.length) →
      (List.zipWith (fun (w : ℤ) row => (w : Scalar) * dot row vector) weights rows).sum =
        ∑ j ∈ Finset.range vector.length,
          (weightedSum weights rows j : Scalar) * vector.getD j 0
  | [], rows, _ => by simp
  | w :: weights, [], _ => by simp
  | w :: weights, row :: rows, h => by
    obtain ⟨hrow, hrows⟩ := List.forall_mem_cons.mp h
    simp only [List.zipWith_cons_cons, List.sum_cons, sum_weighted_dot hrows, weightedSum_cons,
      dot_eq_sum hrow, hrow, Int.cast_add, Int.cast_mul, add_mul, Finset.sum_add_distrib,
      Finset.mul_sum, mul_assoc]

/-- A multiple of the target has the same multiple of the secret as its product. -/
theorem sum_target_mul {c : ℕ → ℤ} {scale : ℤ} {secret : Scalar} {rest : List Scalar}
    (h : ∀ j < (secret :: rest).length, c j = if j = 0 then scale else 0) :
    ∑ j ∈ Finset.range (secret :: rest).length, (c j : Scalar) * (secret :: rest).getD j 0 =
      scale * secret := by
  rw [Finset.sum_eq_single_of_mem 0 (by simp) fun j hj hne => ?_]
  · rw [h 0 (by simp), if_pos rfl]
    rfl
  · rw [h j (Finset.mem_range.mp hj), if_neg hne, Int.cast_zero, zero_mul]

/-- Weights that combine the rows to a multiple of the target combine the shares to the same
multiple of the secret. -/
theorem sum_weighted_dot_target {rows : List (List Int32)} {weights : List ℤ} {scale : ℤ}
    {secret : Scalar} {rest : List Scalar}
    (hrows : ∀ row ∈ rows, row.length = (secret :: rest).length)
    (h : ∀ j < (secret :: rest).length, weightedSum weights rows j = if j = 0 then scale else 0) :
    (List.zipWith (fun (w : ℤ) row => (w : Scalar) * dot row (secret :: rest)) weights rows).sum =
      scale * secret := by
  rw [sum_weighted_dot hrows, sum_target_mul h]

end AttributeEncryption
