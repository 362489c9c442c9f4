import AttributeEncryption.Sharing.Matrix

/-!
# Building a matrix row by row

Rows of any width are added under distinct labels; `MatrixBuilder.finish` extends them
with zeros to the widest one. A refused row leaves no trace.
-/

namespace AttributeEncryption

/-- The greatest width of the given rows. -/
def greatestWidth (rows : List (List Int32)) : Nat :=
  rows.foldr (fun row widest => max row.length widest) 0

theorem length_le_greatestWidth {rows : List (List Int32)} {row : List Int32}
    (h : row ∈ rows) : row.length ≤ greatestWidth rows := by
  induction rows with
  | nil => cases h
  | cons first rest ih =>
    rcases List.mem_cons.mp h with rfl | h
    · exact Nat.le_max_left _ _
    · exact Nat.le_trans (ih h) (Nat.le_max_right _ _)

/-- A row made `columns` entries wide: cut off there, or extended with zeros. -/
def resize (columns : Nat) (row : List Int32) : List Int32 :=
  row.take columns ++ List.replicate (columns - row.length) 0

@[simp]
theorem length_resize (columns : Nat) (row : List Int32) :
    (resize columns row).length = columns := by
  simp only [resize, List.length_append, List.length_take, List.length_replicate]
  omega

/-- The rows that were added so far, with their labels. -/
structure MatrixBuilder where
  /-- The rows in the order in which they were added. -/
  rows : List (List Int32)
  /-- The label of each row. -/
  labels : List UInt32
  /-- Every row has one label. -/
  labels_length : labels.length = rows.length
  /-- No two rows have the same label. -/
  labels_nodup : labels.Nodup

namespace MatrixBuilder

/-- The builder without rows. -/
def empty : MatrixBuilder :=
  ⟨[], [], rfl, List.nodup_nil⟩

/-- The number of rows. -/
def size (b : MatrixBuilder) : Nat :=
  b.rows.length

/-- Whether there are no rows. -/
def isEmpty (b : MatrixBuilder) : Bool :=
  b.rows.isEmpty

/-- Adds a row under a new label. Its number is the number of rows before it. -/
def add (b : MatrixBuilder) (id : UInt32) (row : List Int32) : Except Failure MatrixBuilder :=
  if h : id ∈ b.labels then .error (.duplicateAttribute id)
  else
    .ok
      { rows := b.rows ++ [row]
        labels := b.labels ++ [id]
        labels_length := by simp [b.labels_length]
        labels_nodup := by
          rw [List.nodup_append]
          refine ⟨b.labels_nodup, by simp, ?_⟩
          intro x hx y hy hxy
          simp only [List.mem_singleton] at hy
          subst hxy hy
          exact h hx }

/-- Adds rows one after the other, up to the first one that is refused. -/
def addAll (b : MatrixBuilder) : List (UInt32 × List Int32) → Except Failure MatrixBuilder
  | [] => .ok b
  | (id, row) :: rest => do
    let b ← b.add id row
    b.addAll rest

/-- The matrix of the added rows, each extended with zeros to the greatest width. -/
def finish (b : MatrixBuilder) : Except Failure ShareMatrix :=
  let columns := greatestWidth b.rows
  if h : 0 < columns then
    have hwidth : width (b.rows.map (resize columns)) = columns := by
      cases hrows : b.rows with
      | nil => simp [columns, greatestWidth, hrows] at h
      | cons => simp [width]
    .ok
      { rows := b.rows.map (resize columns)
        labels := b.labels
        width_pos := by rw [hwidth]; exact h
        rectangular := by
          rw [hwidth]
          intro row hrow
          obtain ⟨_, _, rfl⟩ := List.mem_map.mp hrow
          exact length_resize _ _
        labels_length := by simp [b.labels_length]
        labels_nodup := b.labels_nodup }
  else .error .emptyMatrix

end MatrixBuilder

end AttributeEncryption
