import AttributeEncryption.Proofs.Wire.Matrix
import AttributeEncryption.Sharing.Compile
import AttributeEncryption.Sharing.Workspace
import Mathlib.Logic.Function.Basic

/-!
# Matrices as tables

A matrix is kept as four tables (`MatrixTables`) : its rows, the label of each row, the row of
each label, and the weights that were computed last. Nothing in their type says that they belong
together. Rows are found by label in a map, and each way of making a matrix fills it by code of
its own : row by row while the matrix is built (`BuilderTables.addRow`), all at once for given
parts, or after the labels of stored bytes were put into the slots of their rows.

Each of them makes the tables of the matrix with proofs that the library works with
(`MatrixTables.ofParts_eq`, `BuilderTables.finish_eq`, `MatrixTables.read_eq`,
`MatrixTables.ofJson_eq`, `MatrixTables.compile_eq`), and fails if that fails. The map is then the
search in the labels (`Workspace.tables`).
-/

namespace AttributeEncryption

/-! ## Tables -/

/-- A matrix as it is kept. -/
@[ext]
structure MatrixTables where
  /-- The rows. -/
  rows : List (List Int32)
  /-- The label of each row. -/
  labels : List UInt32
  /-- The row of each label. -/
  rowOf : UInt32 → Option ℕ
  /-- The weights that were computed last. -/
  last : Option Weights

/-- A labelled row that is offered to a builder. -/
abbrev Offer := UInt32 × List Int32

/-- The rows that were added so far, with the greatest width. -/
@[ext]
structure BuilderTables where
  /-- The rows. -/
  rows : List (List Int32)
  /-- The label of each row. -/
  labels : List UInt32
  /-- The row of each label. -/
  rowOf : UInt32 → Option ℕ
  /-- The greatest width of a row. -/
  width : ℕ

namespace BuilderTables

/-- No rows. -/
def empty : BuilderTables where
  rows := []
  labels := []
  rowOf _ := none
  width := 0

/-- Enters a row in all tables, one after the other, unless its label is taken, and gives its
number. -/
def addRow (c : Offer) : ExceptT Failure (StateM BuilderTables) ℕ := do
  let b ← get
  if (b.rowOf c.1).isSome then throw (.duplicateAttribute c.1)
  modify fun b => { b with width := max b.width c.2.length }
  modify fun b => { b with rows := b.rows ++ [c.2] }
  modify fun b => { b with labels := b.labels ++ [c.1] }
  modify fun b' => { b' with rowOf := Function.update b'.rowOf c.1 (some b.rows.length) }
  return b.rows.length

/-- The result of offering a row, and the tables that it leaves. -/
def call (b : BuilderTables) (c : Offer) : Except Failure ℕ × BuilderTables :=
  StateT.run (ExceptT.run (addRow c)) b

/-- The tables with a row more, unless it is refused. -/
def add (b : BuilderTables) (id : UInt32) (row : List Int32) : Except Failure BuilderTables :=
  match b.call (id, row) with
  | (.ok _, b') => .ok b'
  | (.error cause, _) => .error cause

/-- Adds rows one after the other, up to the first one that is refused. -/
def addAll (b : BuilderTables) : List Offer → Except Failure BuilderTables
  | [] => .ok b
  | (id, row) :: rest => do
    let b ← b.add id row
    b.addAll rest

/-- The tables of the matrix. -/
def finish (b : BuilderTables) : Except Failure MatrixTables :=
  if b.rows.isEmpty ∨ b.width = 0 then .error .emptyMatrix
  else
    .ok
      { rows := b.rows.map (resize b.width)
        labels := b.labels
        rowOf := b.rowOf
        last := none }

end BuilderTables

namespace MatrixTables

/-- Enters labels for the rows from `row` on, up to the first one that the map has already. -/
def enter (rowOf : UInt32 → Option ℕ) (row : ℕ) :
    List UInt32 → Except Failure (UInt32 → Option ℕ)
  | [] => .ok rowOf
  | id :: rest =>
    if (rowOf id).isSome then .error (.invalidData (.repeatedLabel id row))
    else enter (Function.update rowOf id (some row)) (row + 1) rest

/-- The tables for given rows and labels. -/
def ofParts (rows : List (List Int32)) (labels : List UInt32) : Except Failure MatrixTables :=
  if rows.isEmpty then .error .emptyMatrix
  else if width rows = 0 then .error (.invalidData .noColumns)
  else
    match firstRagged (width rows) rows with
    | some (row, index) => .error (.invalidData (.raggedRow index row.length (width rows)))
    | none =>
      if labels.length = rows.length then do
        let rowOf ← enter (fun _ => none) 0 labels
        return { rows, labels, rowOf, last := none }
      else .error (.invalidData (.labelCount labels.length rows.length))

/-- Reads labels and puts each of them into the slot of its row. -/
def readSlots : ℕ → List (Option UInt32) → Reader (List (Option UInt32))
  | 0, slots => return slots
  | count + 1, slots => do
    let id ← Reader.word
    let row ← Reader.length
    if slots.length ≤ row then Reader.refuse (.invalidData (.rowOutOfRange row))
    else if slots[row]?.join.isSome then Reader.refuse (.invalidData (.rowLabelledTwice row))
    else readSlots count (slots.set row (some id))

/-- Reads the tables of a matrix. -/
def read : Reader MatrixTables := do
  let rowCount ← Reader.length
  let columns ← Reader.length
  if rowCount = 0 then Reader.refuse .emptyMatrix
  else if columns = 0 then Reader.refuse (.invalidData .noColumns)
  else
    let rows ← Reader.many (Reader.many Reader.signedWord columns) rowCount
    let restatedColumns ← Reader.length
    let restatedRows ← Reader.length
    if restatedColumns ≠ columns ∨ restatedRows ≠ rowCount then
      Reader.refuse
        (.invalidData (.dimensions rowCount columns restatedRows restatedColumns))
    else
      let count ← Reader.length
      if count ≠ rowCount then
        Reader.refuse (.invalidData (.labelCount count rowCount))
      else
        let slots ← readSlots count (List.replicate rowCount none)
        Reader.check (ofParts rows (slots.filterMap id))

/-- Reads the JSON form. -/
def ofJson (j : Json) : Except Json.Refusal MatrixTables := do
  match ← j.asFields ["matrix", "attribute_ids"] with
  | [rows, labels] =>
    let rows ← Json.required (Json.asList (Json.asList Json.asInt32)) rows
    let labels ← Json.required (Json.asList Json.asUInt32) labels
    (ofParts rows labels).mapError .content
  | _ => .error .shape

/-- The tables for an access tree. -/
def compile (tree : AccessTree) : Except Failure MatrixTables := do
  let builder ← BuilderTables.empty.addAll (tree.label [1] 1).1
  builder.finish

/-- The words of a matrix. Only the rows and their labels are written. -/
def write (t : MatrixTables) : Written :=
  let entries (row : List Int32) : List UInt8 := row.flatMap Frame.signedWord
  let label (pair : UInt32 × ℕ) : Written :=
    Frame.sequence [.ok (Frame.word pair.1), Frame.length pair.2]
  Frame.sequence
    ([Frame.length t.rows.length, Frame.length (width t.rows), .ok (t.rows.flatMap entries),
      Frame.length (width t.rows), Frame.length t.rows.length, Frame.length t.labels.length] ++
      t.labels.zipIdx.map label)

/-- The JSON form : the rows and their labels. -/
def toJson (t : MatrixTables) : Json :=
  .record
    [("matrix", .list (t.rows.map fun row => .list (row.map .ofInt32))),
      ("attribute_ids", .list (t.labels.map .ofUInt32))]

/-- Computes the weights for the rows that are not in `unavailable` and keeps them. -/
def compute (t : MatrixTables) (unavailable : List ℕ) : Except Failure MatrixTables := do
  let weights ← reconstructionWeights t.rows unavailable
  return { t with last := some weights }

/-- Whether two matrices have the same rows and labels. -/
def same (t t' : MatrixTables) : Bool :=
  t.rows == t'.rows && t.labels == t'.labels

end MatrixTables

/-! ## The tables of a matrix -/

/-- The tables of a matrix and its kept weights. -/
def Workspace.tables (w : Workspace) : MatrixTables where
  rows := w.matrix.rows
  labels := w.matrix.labels
  rowOf := w.matrix.rowOf?
  last := w.last

/-- The tables of a matrix for which no weights were computed. -/
abbrev ShareMatrix.tables (m : ShareMatrix) : MatrixTables :=
  (Workspace.ofMatrix m).tables

/-! ### Parts -/

/-- Entering labels gives the search in them, in front of what was there. -/
theorem MatrixTables.enter_eq {earlier : List UInt32} {rowOf : UInt32 → Option ℕ}
    (h : ∀ id, (rowOf id).isSome ↔ id ∈ earlier) (row : ℕ) (labels : List UInt32) :
    enter rowOf row labels =
      match firstRepeated earlier row labels with
      | some (id, row) => .error (.invalidData (.repeatedLabel id row))
      | none => .ok fun id => ((labels.idxOf? id).map (· + row)).or (rowOf id) := by
  induction labels generalizing earlier rowOf row with
  | nil => rfl
  | cons id rest ih =>
    rw [enter, firstRepeated]
    simp only [h]
    split_ifs with hid
    · rfl
    · have hupdate : ∀ x, (Function.update rowOf id (some row) x).isSome ↔ x ∈ id :: earlier := by
        intro x
        rw [Function.update_apply, List.mem_cons, ← h]
        split_ifs with hx <;> simp [hx]
      rw [ih hupdate]
      cases hrepeated : firstRepeated (id :: earlier) (row + 1) rest with
      | some fault => rfl
      | none =>
        have hnew : id ∉ rest := fun hmem =>
          (firstRepeated_eq_none_iff.mp hrepeated).2 id hmem List.mem_cons_self
        refine congrArg Except.ok (funext fun x => ?_)
        rw [Function.update_apply, List.idxOf?_cons]
        by_cases hx : x = id
        · subst hx
          simp [List.idxOf?_eq_none_iff.mpr hnew]
        · have hx' : (id == x) = false := by simpa using Ne.symm hx
          simp [hx, hx', Option.map_map, Function.comp_def, Nat.add_assoc, Nat.add_comm 1]

/-- The parts of a matrix make its tables. -/
theorem MatrixTables.ofParts_parts (m : ShareMatrix) : ofParts m.rows m.labels = .ok m.tables := by
  have henter := @enter_eq [] (fun _ => none) (by simp) 0 m.labels
  rw [firstRepeated_eq_none_iff.mpr ⟨m.labels_nodup, by simp⟩] at henter
  have hempty : ¬ m.rows.isEmpty = true := fun h =>
    Nat.ne_of_gt m.rows_pos (List.length_eq_zero_iff.mpr (List.isEmpty_iff.mp h))
  rw [ofParts, if_neg hempty, if_neg (Nat.ne_of_gt m.width_pos),
    firstRagged_eq_none_iff.mpr m.rectangular]
  simp only
  rw [if_pos m.labels_length, henter]
  refine congrArg Except.ok ?_
  ext1
  · rfl
  · rfl
  · funext id
    simp only [Nat.add_zero, Option.map_id', Option.or_none]
    rfl
  · rfl

/-- Parts that make no matrix are refused for the same reason. -/
theorem MatrixTables.ofParts_eq_error {rows : List (List Int32)} {labels : List UInt32}
    {cause : Failure} (h : ShareMatrix.ofParts rows labels = .error cause) :
    ofParts rows labels = .error cause := by
  unfold ShareMatrix.ofParts at h
  unfold ofParts
  split_ifs at h ⊢ with hempty hwidth hlength
  · cases h
    rfl
  · cases h
    rfl
  · split at h
    · next hragged =>
      cases h
      rw [hragged]
    · next hragged =>
      split at h
      · next hrepeated =>
        cases h
        rw [hragged, @enter_eq [] (fun _ => none) (by simp) 0 labels, hrepeated]
        rfl
      · cases h
  · split at h
    · next hragged =>
      cases h
      rw [hragged]
    · next hragged =>
      cases h
      rw [hragged]

/-- Given parts make the tables of their matrix, or they are refused for the same reason. -/
theorem MatrixTables.ofParts_eq (rows : List (List Int32)) (labels : List UInt32) :
    ofParts rows labels = (ShareMatrix.ofParts rows labels).map ShareMatrix.tables := by
  cases hm : ShareMatrix.ofParts rows labels with
  | ok m =>
    obtain ⟨rfl, rfl⟩ := ShareMatrix.eq_of_ofParts hm
    exact ofParts_parts m
  | error cause => exact ofParts_eq_error hm

/-! ### Builders -/

theorem greatestWidth_concat (rows : List (List Int32)) (row : List Int32) :
    greatestWidth (rows ++ [row]) = max (greatestWidth rows) row.length := by
  induction rows with
  | nil => simp [greatestWidth]
  | cons first rows ih =>
    have hcons : ∀ rows, greatestWidth (first :: rows) = max first.length (greatestWidth rows) :=
      fun _ => rfl
    rw [List.cons_append, hcons, hcons, ih, Nat.max_assoc]

/-- The search for a new label at the end of the labels. -/
theorem idxOf?_concat {labels : List UInt32} {id : UInt32} (h : id ∉ labels) :
    (fun x => (labels ++ [id]).idxOf? x) =
      Function.update (fun x => labels.idxOf? x) id (some labels.length) := by
  funext x
  rw [Function.update_apply]
  induction labels with
  | nil =>
    rw [List.nil_append, List.idxOf?_singleton]
    simp only [beq_iff_eq, List.idxOf?_nil, List.length_nil, @eq_comm _ id x]
  | cons first labels ih =>
    obtain ⟨hfirst, hlabels⟩ := not_or.mp (mt List.mem_cons.mpr h)
    rw [List.cons_append, List.idxOf?_cons, List.idxOf?_cons, ih hlabels]
    by_cases hx : x = id
    · subst hx
      simp [Ne.symm hfirst]
    · simp [hx]

/-- The tables of a builder. -/
def MatrixBuilder.tables (b : MatrixBuilder) : BuilderTables where
  rows := b.rows
  labels := b.labels
  rowOf id := b.labels.idxOf? id
  width := greatestWidth b.rows

/-- The result of offering a row, and the builder after it : the one from before if it fails. -/
def MatrixBuilder.call (b : MatrixBuilder) (c : Offer) : Except Failure ℕ × MatrixBuilder :=
  match b.add c.1 c.2 with
  | .ok b' => (.ok b.size, b')
  | .error cause => (.error cause, b)

namespace BuilderTables

/-- The tables with one more row. -/
def push (b : BuilderTables) (c : Offer) : BuilderTables where
  rows := b.rows ++ [c.2]
  labels := b.labels ++ [c.1]
  rowOf := Function.update b.rowOf c.1 (some b.rows.length)
  width := max b.width c.2.length

/-- A row is refused before anything is updated. -/
theorem call_eq (b : BuilderTables) (c : Offer) :
    b.call c =
      if (b.rowOf c.1).isSome then (.error (.duplicateAttribute c.1), b)
      else (.ok b.rows.length, b.push c) := by
  have hget (f : BuilderTables → ExceptT Failure (StateM BuilderTables) ℕ) :
      StateT.run (ExceptT.run (get >>= f)) b = StateT.run (ExceptT.run (f b)) b := rfl
  unfold call addRow
  rw [hget]
  split_ifs <;> rfl

theorem add_eq_push (b : BuilderTables) (id : UInt32) (row : List Int32) :
    b.add id row =
      if (b.rowOf id).isSome then .error (.duplicateAttribute id) else .ok (b.push (id, row)) := by
  rw [add, call_eq]
  split_ifs <;> rfl

theorem add_eq (b : MatrixBuilder) (id : UInt32) (row : List Int32) :
    b.tables.add id row = (b.add id row).map MatrixBuilder.tables := by
  rw [add_eq_push]
  unfold MatrixBuilder.add
  have hsome : (b.tables.rowOf id).isSome = true ↔ id ∈ b.labels := List.isSome_idxOf?
  simp only [hsome]
  split_ifs with hid
  · rfl
  · refine congrArg Except.ok ?_
    ext1
    · rfl
    · rfl
    · exact (b.labels_length ▸ idxOf?_concat hid).symm
    · exact (greatestWidth_concat b.rows row).symm

/-- Offering a row to the tables does what offering it to the builder does. -/
theorem call_tables (b : MatrixBuilder) (c : Offer) :
    b.tables.call c = ((b.call c).1, (b.call c).2.tables) := by
  have hadd := b.tables.add_eq_push c.1 c.2
  rw [add_eq] at hadd
  rw [call_eq]
  unfold MatrixBuilder.call
  split_ifs at hadd ⊢
  · rw [map_eq_error_iff.mp hadd]
  · obtain ⟨b', hb', hpush⟩ := exists_of_map_eq_ok hadd
    rw [hb', ← hpush]
    rfl

theorem addAll_eq (b : MatrixBuilder) (rows : List Offer) :
    b.tables.addAll rows = (b.addAll rows).map MatrixBuilder.tables := by
  induction rows generalizing b with
  | nil => rfl
  | cons first rest ih =>
    obtain ⟨id, row⟩ := first
    rw [addAll, MatrixBuilder.addAll, add_eq]
    cases b.add id row with
    | error cause => rfl
    | ok b' => exact ih b'

theorem finish_eq (b : MatrixBuilder) :
    b.tables.finish = b.finish.map ShareMatrix.tables := by
  have hempty : (b.tables.rows.isEmpty = true ∨ b.tables.width = 0) ↔
      ¬ 0 < greatestWidth b.rows := by
    rw [Nat.pos_iff_ne_zero, not_not]
    refine ⟨?_, Or.inr⟩
    rintro (hrows | hwidth)
    · have hnil : b.rows = [] := List.isEmpty_iff.mp hrows
      rw [hnil]
      rfl
    · exact hwidth
  unfold finish MatrixBuilder.finish
  simp only [hempty]
  split_ifs <;> rfl

end BuilderTables

namespace MatrixTables

theorem compile_eq (tree : AccessTree) :
    compile tree = (Formula.compile tree).map ShareMatrix.tables := by
  have haddAll := BuilderTables.addAll_eq .empty (tree.label [1] 1).1
  unfold compile Formula.compile
  change BuilderTables.empty.addAll _ = _ at haddAll
  rw [haddAll]
  cases MatrixBuilder.empty.addAll (tree.label [1] 1).1 with
  | error cause => rfl
  | ok b => exact BuilderTables.finish_eq b

/-! ### Stored matrices -/

theorem ofJson_eq (j : Json) : ofJson j = ShareMatrix.tables <$> ShareMatrix.ofJson j := by
  unfold ofJson ShareMatrix.ofJson
  rw [map_bind]
  refine bind_congr fun fields => ?_
  rcases fields with _ | ⟨rows, _ | ⟨labels, _ | _⟩⟩
  · rfl
  · rfl
  · simp only [map_bind]
    refine bind_congr fun rows => bind_congr fun labels => ?_
    rw [ofParts_eq]
    cases ShareMatrix.ofParts rows labels <;> rfl
  · rfl

/-- The slots of the rows, with the labels that were placed. -/
def slotsOf (rowCount : ℕ) (placed : List (ℕ × UInt32)) : List (Option UInt32) :=
  (List.range rowCount).map fun row => placed.lookup row

section Slots

variable {rowCount : ℕ} {placed : List (ℕ × UInt32)}

@[simp]
theorem length_slotsOf : (slotsOf rowCount placed).length = rowCount := by
  unfold slotsOf
  rw [List.length_map, List.length_range]

theorem getElem?_slotsOf {row : ℕ} (h : row < rowCount) :
    (slotsOf rowCount placed)[row]? = some (placed.lookup row) := by
  unfold slotsOf
  rw [List.getElem?_map, List.getElem?_range h, Option.map_some]

/-- A slot is taken if a label was placed for its row. -/
theorem isSome_slotsOf {row : ℕ} (h : row < rowCount) :
    (slotsOf rowCount placed)[row]?.join.isSome = placed.any (·.1 == row) := by
  rw [getElem?_slotsOf h, Option.join_some]
  induction placed with
  | nil => rfl
  | cons first placed ih =>
    rw [List.lookup_cons, List.any_cons, ← ih, BEq.comm]
    cases first.1 == row <;> rfl

theorem set_slotsOf (row : ℕ) (id : UInt32) :
    (slotsOf rowCount placed).set row (some id) = slotsOf rowCount ((row, id) :: placed) := by
  refine List.ext_getElem (by simp) fun i hi hi' => ?_
  simp only [slotsOf, List.getElem_set, List.getElem_map, List.getElem_range, List.lookup_cons]
  by_cases h : row = i
  · simp [h]
  · simp [h, beq_eq_false_iff_ne.mpr (Ne.symm h)]

theorem filterMap_slotsOf :
    (slotsOf rowCount placed).filterMap id = ShareMatrix.inRowOrder rowCount placed := by
  unfold slotsOf ShareMatrix.inRowOrder
  rw [List.filterMap_map]
  rfl

/-- Putting labels into slots is placing them. -/
theorem readSlots_eq (rowCount count : ℕ) (placed : List (ℕ × UInt32)) :
    readSlots count (slotsOf rowCount placed) =
      slotsOf rowCount <$> ShareMatrix.readLabels rowCount count placed := by
  induction count generalizing placed with
  | zero => rfl
  | succ count ih =>
    rw [readSlots, ShareMatrix.readLabels, map_bind]
    refine bind_congr fun id => ?_
    rw [map_bind]
    refine bind_congr fun row => ?_
    rw [length_slotsOf]
    split_ifs with hrow htaken htaken' htaken'
    · rfl
    · rfl
    · rw [isSome_slotsOf (not_le.mp hrow)] at htaken
      exact absurd htaken htaken'
    · rw [isSome_slotsOf (not_le.mp hrow)] at htaken
      exact absurd htaken' htaken
    · rw [set_slotsOf, ih]

end Slots

theorem read_eq : read = ShareMatrix.tables <$> ShareMatrix.read := by
  have hempty (rowCount : ℕ) : List.replicate rowCount none = slotsOf rowCount [] := by
    unfold slotsOf
    simp
  unfold read ShareMatrix.read
  simp only [map_bind, hempty, readSlots_eq, ofParts_eq]
  refine bind_congr fun rowCount => bind_congr fun columns => ?_
  split_ifs
  · rfl
  · rfl
  · simp only [map_bind]
    refine bind_congr fun rows => bind_congr fun restatedColumns =>
      bind_congr fun restatedRows => ?_
    split_ifs
    · rfl
    · rw [map_bind]
      refine bind_congr fun count => ?_
      split_ifs
      · rfl
      · rw [map_bind, bind_map_left]
        refine bind_congr fun placed => ?_
        rw [filterMap_slotsOf]
        cases ShareMatrix.ofParts rows (ShareMatrix.inRowOrder rowCount placed) <;> rfl

theorem write_tables (w : Workspace) : w.tables.write = w.matrix.write :=
  rfl

theorem toJson_tables (w : Workspace) : w.tables.toJson = w.matrix.toJson :=
  rfl

/-- Computing weights does not look at the labels. -/
theorem compute_eq (w : Workspace) (unavailable : List ℕ) :
    w.tables.compute unavailable = (w.compute unavailable).map Workspace.tables := by
  have hrows : reconstructionWeights w.tables.rows unavailable = w.matrix.weights unavailable :=
    rfl
  unfold compute Workspace.compute
  rw [hrows]
  cases w.matrix.weights unavailable <;> rfl

end MatrixTables

end AttributeEncryption
