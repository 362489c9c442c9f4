import AttributeEncryption.Json

/-!
# Labelled matrices

A `ShareMatrix` is a rectangular matrix of 32-bit integers with at least one entry,
whose rows are labelled with pairwise distinct attribute ids. That it is one is part
of the type. `ShareMatrix.ofParts` checks rows and labels from outside, and
`ofParts_rows_labels` says that it gives back every matrix from its own parts.
-/

namespace AttributeEncryption

/-- The width of the first row, which sets the width of a matrix. -/
def width (rows : List (List Int32)) : Nat :=
  match rows with
  | [] => 0
  | row :: _ => row.length

/-- A matrix whose rows generate the shares of the attributes they are labelled with. -/
structure ShareMatrix where
  /-- The rows. -/
  rows : List (List Int32)
  /-- The attribute id of each row. -/
  labels : List UInt32
  /-- There is a first row, and it has an entry. -/
  width_pos : 0 < width rows
  /-- All rows are as wide as the first one. -/
  rectangular : ∀ row ∈ rows, row.length = width rows
  /-- Every row has one label. -/
  labels_length : labels.length = rows.length
  /-- No two rows have the same label. -/
  labels_nodup : labels.Nodup
  deriving DecidableEq

/-! ## Checking parts -/

/-- The first row that is not `expected` entries wide, with its number. -/
def firstRagged (expected : Nat) (rows : List (List Int32)) : Option (List Int32 × Nat) :=
  rows.zipIdx.find? fun (row, _) => row.length ≠ expected

theorem firstRagged_eq_none_iff {expected : Nat} {rows : List (List Int32)} :
    firstRagged expected rows = none ↔ ∀ row ∈ rows, row.length = expected := by
  unfold firstRagged
  rw [List.find?_eq_none]
  constructor
  · intro h row hrow
    obtain ⟨i, hi, rfl⟩ := List.getElem_of_mem hrow
    have := h (rows[i], i) (by simp [List.mem_zipIdx_iff_getElem?, hi])
    simpa using this
  · rintro h ⟨row, i⟩ hmem
    have : row ∈ rows := by
      rw [List.mem_zipIdx_iff_getElem?] at hmem
      exact List.mem_of_getElem? hmem
    simpa using h row this

/-- The first label that an earlier one repeats, where `earlier` holds the labels of
the rows before row `row`. -/
def firstRepeated (earlier : List UInt32) (row : Nat) : List UInt32 → Option (UInt32 × Nat)
  | [] => none
  | id :: rest =>
    if id ∈ earlier then some (id, row) else firstRepeated (id :: earlier) (row + 1) rest

theorem firstRepeated_eq_none_iff {earlier : List UInt32} {row : Nat} {labels : List UInt32} :
    firstRepeated earlier row labels = none ↔ labels.Nodup ∧ ∀ id ∈ labels, id ∉ earlier := by
  induction labels generalizing earlier row with
  | nil => simp [firstRepeated]
  | cons id rest ih =>
    simp only [firstRepeated]
    split
    · next h => simp [h]
    · next h =>
      rw [ih, List.nodup_cons]
      constructor
      · rintro ⟨hnodup, hnew⟩
        refine ⟨⟨fun hmem => hnew id hmem List.mem_cons_self, hnodup⟩, ?_⟩
        intro x hx
        rcases List.mem_cons.mp hx with rfl | hx
        · exact h
        · exact fun hx' => hnew x hx (List.mem_cons_of_mem _ hx')
      · rintro ⟨⟨hid, hnodup⟩, hnew⟩
        refine ⟨hnodup, fun x hx hx' => ?_⟩
        rcases List.mem_cons.mp hx' with rfl | hx'
        · exact hid hx
        · exact hnew x (List.mem_cons_of_mem _ hx) hx'

namespace ShareMatrix

/-- The matrix of `rows` with `labels` in row order. Of several faults the first one in
this order is reported: no rows, rows without entries, rows of unequal width, another
number of labels, a repeated label. -/
def ofParts (rows : List (List Int32)) (labels : List UInt32) : Except Failure ShareMatrix :=
  if rows.isEmpty then .error .emptyMatrix
  else if hwidth : width rows = 0 then .error (.invalidData .noColumns)
  else
    match hragged : firstRagged (width rows) rows with
    | some (row, index) => .error (.invalidData (.raggedRow index row.length (width rows)))
    | none =>
      if hlength : labels.length = rows.length then
        match hrepeated : firstRepeated [] 0 labels with
        | some (id, row) => .error (.invalidData (.repeatedLabel id row))
        | none =>
          .ok
            { rows, labels
              width_pos := Nat.pos_of_ne_zero hwidth
              rectangular := firstRagged_eq_none_iff.mp hragged
              labels_length := hlength
              labels_nodup := (firstRepeated_eq_none_iff.mp hrepeated).1 }
      else .error (.invalidData (.labelCount labels.length rows.length))

variable (m : ShareMatrix)

/-! ## Parts -/

/-- The number of rows. -/
def rowCount : Nat :=
  m.rows.length

/-- The number of columns. -/
def columns : Nat :=
  width m.rows

/-- A row by its number. -/
def row? (index : Nat) : Option (List Int32) :=
  m.rows[index]?

/-- The label of a row. -/
def label? (row : Nat) : Option UInt32 :=
  m.labels[row]?

/-- The row that a label stands at. -/
def rowOf? (id : UInt32) : Option Nat :=
  m.labels.idxOf? id

/-- The rows whose label `held` rejects, ascending. -/
def unavailable (held : UInt32 → Bool) : List Nat :=
  (m.labels.zipIdx.filter fun (id, _) => !held id).map (·.2)

/-- The rows whose label `held` accepts, ascending. -/
def available (held : UInt32 → Bool) : List Nat :=
  (m.labels.zipIdx.filter fun (id, _) => held id).map (·.2)

/-- A matrix is made up of its own parts. -/
theorem ofParts_rows_labels : ofParts m.rows m.labels = .ok m := by
  have hwidth := m.width_pos
  have hempty : m.rows.isEmpty = false := by
    cases h : m.rows with
    | nil => simp [width, h] at hwidth
    | cons => rfl
  unfold ofParts
  simp only [hempty, Bool.false_eq_true, if_false]
  rw [dif_neg (Nat.ne_of_gt hwidth)]
  split
  · next h =>
    have := firstRagged_eq_none_iff.mpr m.rectangular
    simp [this] at h
  · rw [dif_pos m.labels_length]
    split
    · next h =>
      have : firstRepeated [] 0 m.labels = none :=
        firstRepeated_eq_none_iff.mpr ⟨m.labels_nodup, by simp⟩
      simp [this] at h
    · rfl

/-! ## Text and JSON form -/

/-- The text of a matrix: its rows, its labels and its width. -/
def text : String :=
  let row (entries : List Int32) : String :=
    "(" ++ ",".intercalate (entries.map fun e => toString e.toInt) ++ ")"
  "\x7bm: [" ++ ",".intercalate (m.rows.map row) ++ "], pi: [" ++
    ",".intercalate (m.labels.map fun id => toString id.toNat) ++ "], c: " ++
    toString m.columns ++ "\x7d"

/-- The JSON form: the rows and their labels. -/
def toJson : Json :=
  .record
    [("matrix", .list (m.rows.map fun row => .list (row.map .ofInt32))),
      ("attribute_ids", .list (m.labels.map .ofUInt32))]

/-- Reads the JSON form and checks its parts. -/
def ofJson (j : Json) : Except Json.Refusal ShareMatrix := do
  match ← j.asFields ["matrix", "attribute_ids"] with
  | [rows, labels] =>
    let rows ← Json.required (Json.asList (Json.asList Json.asInt32)) rows
    let labels ← Json.required (Json.asList Json.asUInt32) labels
    (ofParts rows labels).mapError .content
  | _ => .error .shape

end ShareMatrix

end AttributeEncryption
