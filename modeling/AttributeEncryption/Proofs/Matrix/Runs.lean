import AttributeEncryption.Proofs.Elimination.Exactness
import AttributeEncryption.Proofs.Matrix.Tables
import AttributeEncryption.Proofs.Runs
import AttributeEncryption.Proofs.Wire.Json

/-!
# Runs of matrices

However the tables of a matrix were made (`MatrixSource`), and whatever is computed with them, they
belong together (`MatrixTables.WellFormed`), and the weights that they keep are those of the last
successful computation (`lastSuccess`). What is stored or compared is the rows and their labels,
so a matrix that is stored and read again has lost its weights and nothing else
(`matrices_stay_in_step`).

Computations change nothing but the kept weights (`MatrixTables.runCalls_step`). All else about the
tables is therefore settled when they are made, where they are those of a matrix with proofs.
-/

namespace AttributeEncryption

/-! ## Well-formed tables -/

/-- The tables belong together : the rows make a rectangle with an entry, and rows and labels are
found from each other. -/
structure MatrixTables.WellFormed (t : MatrixTables) : Prop where
  rows_pos : 1 ≤ t.rows.length
  columns_pos : 1 ≤ width t.rows
  rectangular : ∀ row ∈ t.rows, row.length = width t.rows
  labels_length : t.labels.length = t.rows.length
  labels_nodup : t.labels.Nodup
  rowOf_iff : ∀ id row, t.rowOf id = some row ↔ t.labels[row]? = some id

/-- In labels without repetitions the search finds the one place of a label. -/
theorem idxOf?_eq_some_iff_of_nodup {labels : List UInt32} (h : labels.Nodup) {id : UInt32}
    {row : ℕ} : labels.idxOf? id = some row ↔ labels[row]? = some id := by
  rw [List.idxOf?_eq_some_iff, List.getElem?_eq_some_iff]
  refine ⟨fun ⟨hlt, hid, _⟩ => ⟨hlt, hid⟩, fun ⟨hlt, hid⟩ => ⟨hlt, hid, fun j hj hjd => ?_⟩⟩
  exact hj.ne ((h.getElem_inj_iff).mp (hjd.trans hid.symm))

theorem Workspace.wellFormed_tables (w : Workspace) : w.tables.WellFormed where
  rows_pos := w.matrix.rows_pos
  columns_pos := w.matrix.width_pos
  rectangular := w.matrix.rectangular
  labels_length := w.matrix.labels_length
  labels_nodup := w.matrix.labels_nodup
  rowOf_iff _ _ := idxOf?_eq_some_iff_of_nodup w.matrix.labels_nodup

/-- Well-formed tables are the same exactly if they are equal but for the kept weights. -/
theorem MatrixTables.WellFormed.same_iff {t t' : MatrixTables} (h : t.WellFormed)
    (h' : t'.WellFormed) :
    t.same t' = true ↔ { t with last := none } = { t' with last := none } := by
  unfold same
  rw [Bool.and_eq_true, beq_iff_eq, beq_iff_eq]
  refine ⟨fun ⟨hrows, hlabels⟩ => ?_, fun heq => ?_⟩
  · ext1
    · exact hrows
    · exact hlabels
    · funext id
      refine Option.ext fun row => ?_
      rw [h.rowOf_iff, h'.rowOf_iff, hlabels]
    · rfl
  · obtain ⟨hrows, hlabels, -, -⟩ := MatrixTables.mk.inj heq
    exact ⟨hrows, hlabels⟩

/-! ## Where matrices come from -/

/-- The builder after a row was offered to it. -/
def MatrixBuilder.offer (b : MatrixBuilder) (row : Offer) : MatrixBuilder :=
  (b.call row).2

/-- The tables after a row was offered to them. -/
def BuilderTables.offer (b : BuilderTables) (row : Offer) : BuilderTables :=
  (b.call row).2

theorem BuilderTables.foldl_offer (b : MatrixBuilder) (rows : List Offer) :
    rows.foldl offer b.tables = (rows.foldl MatrixBuilder.offer b).tables := by
  induction rows generalizing b with
  | nil => rfl
  | cons row rows ih =>
    have hoffer : b.tables.offer row = (b.offer row).tables := by
      rw [offer, call_tables, MatrixBuilder.offer]
    rw [List.foldl_cons, List.foldl_cons, hoffer, ih]

/-- What a matrix is made from. -/
inductive MatrixSource where
  /-- An access tree. -/
  | tree (t : AccessTree)
  /-- Rows that are offered to a builder. -/
  | built (rows : List (UInt32 × List Int32))
  /-- Rows and labels. -/
  | parts (rows : List (List Int32)) (labels : List UInt32)
  /-- Stored bytes. -/
  | bytes (input : List UInt8)
  /-- A JSON value. -/
  | json (value : Json)

namespace MatrixSource

/-- The matrix, unless it is refused. -/
def matrix? : MatrixSource → Option ShareMatrix
  | .tree t => (Formula.compile t).toOption
  | .built rows => (rows.foldl MatrixBuilder.offer .empty).finish.toOption
  | .parts rows labels => (ShareMatrix.ofParts rows labels).toOption
  | .bytes input => (Reader.ofBytes ShareMatrix.read input).toOption
  | .json value => (ShareMatrix.ofJson value).toOption

/-- Its tables, each made by the code of its own. -/
def tables? : MatrixSource → Option MatrixTables
  | .tree t => (MatrixTables.compile t).toOption
  | .built rows => (rows.foldl BuilderTables.offer .empty).finish.toOption
  | .parts rows labels => (MatrixTables.ofParts rows labels).toOption
  | .bytes input => (Reader.ofBytes MatrixTables.read input).toOption
  | .json value => (MatrixTables.ofJson value).toOption

theorem tables?_eq (source : MatrixSource) :
    source.tables? = source.matrix?.map ShareMatrix.tables := by
  cases source with
  | tree t =>
    rw [tables?, MatrixTables.compile_eq, toOption_map]
    rfl
  | built rows =>
    have hempty : BuilderTables.empty = MatrixBuilder.empty.tables := rfl
    rw [tables?, hempty, BuilderTables.foldl_offer, BuilderTables.finish_eq, toOption_map]
    rfl
  | parts rows labels =>
    rw [tables?, MatrixTables.ofParts_eq, toOption_map]
    rfl
  | bytes input =>
    rw [tables?, MatrixTables.read_eq, Reader.ofBytes_map, toOption_map]
    rfl
  | json value =>
    rw [tables?, MatrixTables.ofJson_eq]
    exact toOption_map _ _

end MatrixSource

/-! ## What is done with them -/

/-- A use of a matrix. -/
inductive MatrixUse where
  /-- The weights for the rows that are not in `unavailable` are computed. -/
  | compute (unavailable : List ℕ)
  /-- It is copied, and the copy is used from then on. -/
  | clone

namespace MatrixTables

/-- A copy. -/
def clone (t : MatrixTables) : MatrixTables where
  rows := t.rows
  labels := t.labels
  rowOf := t.rowOf
  last := t.last

/-- The reply to a use, if it has one, and the tables after it : those from before if it fails. -/
def step (t : MatrixTables) : MatrixUse → Option (Except Failure Weights) × MatrixTables
  | .compute unavailable =>
    match t.compute unavailable with
    | .ok t' => (t'.last.map .ok, t')
    | .error cause => (some (.error cause), t)
  | .clone => (none, t.clone)

end MatrixTables

/-- The weights of the last reply that is not a failure. -/
def lastSuccess (replies : List (Option (Except Failure Weights))) : Option Weights :=
  (replies.filterMap fun reply => reply.bind Except.toOption).getLast?

namespace MatrixTables

variable {t : MatrixTables}

/-- A computation that fails changes nothing. -/
theorem step_of_error {unavailable : List ℕ} {cause : Failure}
    (h : reconstructionWeights t.rows unavailable = .error cause) :
    t.step (.compute unavailable) = (some (.error cause), t) := by
  rw [step, compute, h]
  rfl

/-- A computation that succeeds replaces the kept weights. -/
theorem step_of_ok {unavailable : List ℕ} {weights : Weights}
    (h : reconstructionWeights t.rows unavailable = .ok weights) :
    t.step (.compute unavailable) = (some (.ok weights), { t with last := some weights }) := by
  rw [step, compute, h]
  rfl

/-- With well-formed tables a computation can fail for an overflow only. -/
theorem WellFormed.step_compute (h : t.WellFormed) (unavailable : List ℕ) :
    reconstructionWeights t.rows unavailable = .error .coefficientOverflow ∧
        t.step (.compute unavailable) = (some (.error .coefficientOverflow), t) ∨
      ∃ weights, reconstructionWeights t.rows unavailable = .ok weights ∧
        t.step (.compute unavailable) = (some (.ok weights), { t with last := some weights }) := by
  rcases (overflowOr_reconstructionWeights unavailable h.columns_pos h.rectangular).cases with
    hweights | ⟨weights, hweights, -⟩
  · exact Or.inl ⟨hweights, step_of_error hweights⟩
  · exact Or.inr ⟨weights, hweights, step_of_ok hweights⟩

/-- A use changes nothing but the kept weights, which it replaces if it gives any. -/
theorem step_eq (t : MatrixTables) (use : MatrixUse) :
    (t.step use).2 = { t with last := ((t.step use).1.bind Except.toOption).or t.last } := by
  cases use with
  | compute unavailable =>
    cases hweights : reconstructionWeights t.rows unavailable with
    | error cause =>
      rw [step_of_error hweights]
      rfl
    | ok weights =>
      rw [step_of_ok hweights]
      rfl
  | clone => rfl

end MatrixTables

theorem lastSuccess_cons (reply : Option (Except Failure Weights))
    (replies : List (Option (Except Failure Weights))) :
    lastSuccess (reply :: replies) = (lastSuccess replies).or (reply.bind Except.toOption) := by
  unfold lastSuccess
  rw [List.filterMap_cons]
  cases reply.bind Except.toOption with
  | none => rw [Option.or_none]
  | some weights =>
    simp only [List.getLast?_cons]
    cases (replies.filterMap fun reply => reply.bind Except.toOption).getLast? <;> rfl

namespace MatrixTables

/-- Uses change nothing but the kept weights, which are those of the last success. -/
theorem runCalls_step (t : MatrixTables) (uses : List MatrixUse) :
    (runCalls step t uses).2 =
      { t with last := (lastSuccess (runCalls step t uses).1).or t.last } := by
  induction uses generalizing t with
  | nil => rfl
  | cons use uses ih =>
    have hstep := step_eq t use
    simp only [runCalls]
    rw [ih, lastSuccess_cons, hstep, Option.or_assoc]

end MatrixTables

/-- Whatever a matrix is made from and whatever is done with it, its tables belong together, and
they are those of the matrix with proofs and the weights of the last success. A computation that
overflows changes nothing, any other one replaces the kept weights, and a copy keeps them. Stored
bytes, the JSON form and the parts of the matrix give it back without kept weights, and it is the
same as another one exactly if they are equal but for those. -/
theorem matrices_stay_in_step {source : MatrixSource} {t₀ : MatrixTables}
    (h : source.tables? = some t₀) (uses : List MatrixUse) :
    ∃ (w : Workspace) (replies : List (Option (Except Failure Weights))) (t : MatrixTables),
      source.matrix? = some w.matrix ∧
      runCalls MatrixTables.step t₀ uses = (replies, t) ∧ t = w.tables ∧ t.WellFormed ∧
      t.last = lastSuccess replies ∧
      (∀ unavailable, t.compute unavailable = (w.compute unavailable).map Workspace.tables) ∧
      (∀ unavailable,
        reconstructionWeights t.rows unavailable = .error .coefficientOverflow ∧
            t.step (.compute unavailable) = (some (.error .coefficientOverflow), t) ∨
          ∃ weights, reconstructionWeights t.rows unavailable = .ok weights ∧
            t.step (.compute unavailable) =
              (some (.ok weights), { t with last := some weights })) ∧
      t.step .clone = (none, t) ∧
      (∀ bytes rest, t.write = .ok bytes →
        Reader.ofBytes MatrixTables.read (bytes ++ rest) = .ok { t with last := none }) ∧
      MatrixTables.ofJson t.toJson = .ok { t with last := none } ∧
      MatrixTables.ofParts t.rows t.labels = .ok { t with last := none } ∧
      ∀ t', t'.WellFormed →
        (t.same t' = true ↔ { t with last := none } = { t' with last := none }) := by
  rw [MatrixSource.tables?_eq] at h
  obtain ⟨m, hm, rfl⟩ := Option.map_eq_some_iff.mp h
  have hrun := MatrixTables.runCalls_step m.tables uses
  rcases hcalls : runCalls MatrixTables.step m.tables uses with ⟨replies, t⟩
  rw [hcalls] at hrun
  obtain rfl : t = Workspace.tables ⟨m, lastSuccess replies⟩ :=
    hrun.trans (MatrixTables.ext rfl rfl rfl Option.or_none)
  have hwell := Workspace.wellFormed_tables ⟨m, lastSuccess replies⟩
  refine ⟨⟨m, lastSuccess replies⟩, replies, _, hm, rfl, rfl, hwell, rfl,
    MatrixTables.compute_eq _, hwell.step_compute, rfl, fun bytes rest hbytes => ?_, ?_, ?_,
    fun t' => hwell.same_iff⟩
  · rw [MatrixTables.write_tables] at hbytes
    rw [MatrixTables.read_eq, Reader.ofBytes_map,
      (ShareMatrix.takes_of_write hbytes).ofBytes_eq rest]
    rfl
  · rw [MatrixTables.toJson_tables, MatrixTables.ofJson_eq, ShareMatrix.ofJson_toJson]
    rfl
  · have hparts : ShareMatrix.ofParts m.rows m.labels = .ok m := m.ofParts_rows_labels
    refine (MatrixTables.ofParts_eq m.rows m.labels).trans ?_
    rw [hparts]
    rfl

/-- Three rows and one that repeats a label. -/
def repeatedRows : MatrixSource :=
  .built [(1, [2147483647, 3, 4]), (2, [0, 2147483629, 4]), (1, [5]), (3, [0, 0, 2147483587])]

/-- The first row reaches the target alone, and its weights stay after all three overflow. -/
theorem weights_stay_after_overflow :
    ∃ (t₀ t : MatrixTables) (replies : List (Option (Except Failure Weights))),
      repeatedRows.tables? = some t₀ ∧
      runCalls MatrixTables.step t₀ [.compute [1, 2], .clone, .compute []] = (replies, t) ∧
      replies = [some (.ok ⟨[1, 0, 0], 2147483647⟩), none, some (.error .coefficientOverflow)] ∧
      t.WellFormed ∧ t.last = some ⟨[1, 0, 0], 2147483647⟩ := by
  have hreplies : repeatedRows.tables?.map (fun t₀ =>
      (runCalls MatrixTables.step t₀ [.compute [1, 2], .clone, .compute []]).1) =
      some [some (.ok ⟨[1, 0, 0], 2147483647⟩), none, some (.error .coefficientOverflow)] := by
    decide +kernel
  obtain ⟨t₀, ht₀, heq⟩ := Option.map_eq_some_iff.mp hreplies
  obtain ⟨w, replies, t, -, hrun, -, hwell, hlast, -⟩ :=
    matrices_stay_in_step ht₀ [.compute [1, 2], .clone, .compute []]
  obtain rfl := (congrArg Prod.fst hrun).symm.trans heq
  exact ⟨t₀, t, _, ht₀, hrun, rfl, hwell, hlast⟩

end AttributeEncryption
