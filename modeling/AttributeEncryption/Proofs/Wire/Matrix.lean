import AttributeEncryption.Proofs.Wire.Frames
import AttributeEncryption.Wire.Matrix
import Mathlib.Data.List.Perm.Subperm

/-!
# The grammar of matrices

A `StoredMatrix` is what a byte string has to start with to be read as a matrix : its
dimensions, its entries, both dimensions once more and one label for each row, in any order and
no id twice. Reading takes exactly the bytes of a stored matrix (`StoredMatrix.takes`,
`StoredMatrix.exists_of_read`), and writing gives the bytes of the one that lists the labels by
row (`ShareMatrix.exists_stored`). Both together are `matrix_grammar`.
-/

namespace AttributeEncryption

/-! ## Labels in the order of the rows -/

namespace ShareMatrix

variable {placed : List (ℕ × UInt32)} {rowCount : ℕ}

theorem rows_pos (m : ShareMatrix) : 0 < m.rows.length := by
  have hwidth := m.width_pos
  cases hrows : m.rows with
  | nil =>
    rw [hrows] at hwidth
    cases hwidth
  | cons row rows => exact Nat.succ_pos _

theorem lookup_eq_some_of_mem (h : (placed.map Prod.fst).Nodup) {row : ℕ} {id : UInt32}
    (hmem : (row, id) ∈ placed) : placed.lookup row = some id := by
  induction placed with
  | nil => cases hmem
  | cons first placed ih =>
    obtain ⟨hfirst, hplaced⟩ := List.nodup_cons.mp h
    rcases List.mem_cons.mp hmem with rfl | hmem
    · exact List.lookup_cons_self
    · have hne : (row == first.1) = false :=
        beq_eq_false_iff_ne.mpr fun heq => hfirst (List.mem_map.mpr ⟨_, hmem, heq⟩)
      rw [List.lookup_cons, hne]
      exact ih hplaced hmem

/-- Rows that are all there are, and none twice, are the numbers below their count. -/
theorem perm_range_of_nodup {rows : List ℕ} (hnodup : rows.Nodup)
    (hlt : ∀ row ∈ rows, row < rowCount) (hlength : rows.length = rowCount) :
    rows.Perm (List.range rowCount) := by
  have hsubset : rows ⊆ List.range rowCount := fun row hrow => List.mem_range.mpr (hlt row hrow)
  refine (List.subperm_of_subset hnodup hsubset).perm_of_length_le ?_
  rw [List.length_range, hlength]

section Placed

variable (h : (placed.map Prod.fst).Perm (List.range rowCount))

include h

theorem nodup_rows_of_perm : (placed.map Prod.fst).Nodup :=
  h.nodup_iff.mpr List.nodup_range

/-- Every row has a label. -/
theorem exists_lookup_of_perm {row : ℕ} (hrow : row < rowCount) :
    ∃ id, placed.lookup row = some id ∧ (row, id) ∈ placed := by
  obtain ⟨⟨row, id⟩, hmem, rfl⟩ := List.mem_map.mp (h.mem_iff.mpr (List.mem_range.mpr hrow))
  exact ⟨id, lookup_eq_some_of_mem (nodup_rows_of_perm h) hmem, hmem⟩

theorem inRowOrder_eq_map :
    inRowOrder rowCount placed =
      (List.range rowCount).map fun row => (placed.lookup row).getD 0 := by
  refine List.filterMap_eq_map_iff_forall_eq_some.mpr fun row hrow => ?_
  obtain ⟨id, hid, -⟩ := exists_lookup_of_perm h (List.mem_range.mp hrow)
  rw [hid, Option.getD_some]

theorem length_inRowOrder : (inRowOrder rowCount placed).length = rowCount := by
  rw [inRowOrder_eq_map h, List.length_map, List.length_range]

/-- The label of a row is the one that was placed there. -/
theorem getElem?_inRowOrder {row : ℕ} {id : UInt32} (hmem : (row, id) ∈ placed) :
    (inRowOrder rowCount placed)[row]? = some id := by
  have hrow : row < rowCount :=
    List.mem_range.mp (h.mem_iff.mp (List.mem_map.mpr ⟨_, hmem, rfl⟩))
  rw [inRowOrder_eq_map h, List.getElem?_map, List.getElem?_range hrow, Option.map_some,
    lookup_eq_some_of_mem (nodup_rows_of_perm h) hmem, Option.getD_some]

/-- Ordering the labels loses none. -/
theorem perm_inRowOrder : (placed.map Prod.snd).Perm (inRowOrder rowCount placed) := by
  have hlookup : (placed.map Prod.fst).filterMap (fun row => placed.lookup row) =
      placed.map Prod.snd := by
    rw [List.filterMap_map]
    refine List.filterMap_eq_map_iff_forall_eq_some.mpr fun p hp => ?_
    exact lookup_eq_some_of_mem (nodup_rows_of_perm h) hp
  rw [← hlookup]
  exact h.filterMap _

end Placed

/-- Labels in the order of the rows are as they were. -/
theorem inRowOrder_eq {labels : List UInt32} (hlength : labels.length = rowCount)
    (h : ∀ row id, labels[row]? = some id → placed.lookup row = some id) :
    inRowOrder rowCount placed = labels := by
  subst hlength
  have heq : inRowOrder labels.length placed =
      (List.range labels.length).map fun row => labels.getD row 0 := by
    refine List.filterMap_eq_map_iff_forall_eq_some.mpr fun row hrow => ?_
    have hlabel := List.getElem?_eq_getElem (List.mem_range.mp hrow)
    rw [h row _ hlabel, List.getD_eq_getElem?_getD, hlabel, Option.getD_some]
  rw [heq]
  refine List.ext_getElem (by simp) fun i hi hi' => ?_
  simp [hi']

end ShareMatrix

/-! ## Stored matrices -/

/-- What a byte string has to start with to be read as a matrix. -/
structure StoredMatrix where
  /-- The number of rows. -/
  rowCount : UInt32
  /-- The number of columns. -/
  columns : UInt32
  /-- The entries, row by row. -/
  entries : List Int32
  /-- The labels, each with its row. -/
  pairs : List (UInt32 × UInt32)
  /-- There is a row. -/
  rowCount_pos : 0 < rowCount.toNat
  /-- There is a column. -/
  columns_pos : 0 < columns.toNat
  /-- Every row has an entry for each column. -/
  length_entries : entries.length = rowCount.toNat * columns.toNat
  /-- Every row has one label. -/
  rows_perm : (pairs.map fun p => p.2.toNat).Perm (List.range rowCount.toNat)
  /-- No two rows have the same label. -/
  ids_nodup : (pairs.map Prod.fst).Nodup

namespace StoredMatrix

/-- The words of a label. -/
def pairBytes (pair : UInt32 × UInt32) : List UInt8 :=
  Frame.word pair.1 ++ Frame.word pair.2

/-- The words of a stored matrix. -/
def bytes (s : StoredMatrix) : List UInt8 :=
  Frame.word s.rowCount ++ (Frame.word s.columns ++ (s.entries.flatMap Frame.signedWord ++
    (Frame.word s.columns ++ (Frame.word s.rowCount ++ (Frame.word s.rowCount ++
      s.pairs.flatMap pairBytes)))))

/-- A label with its row in front, as the reader of the labels keeps it. -/
def place (pair : UInt32 × UInt32) : ℕ × UInt32 :=
  (pair.2.toNat, pair.1)

variable (s : StoredMatrix)

theorem map_fst_place (pairs : List (UInt32 × UInt32)) :
    (pairs.map place).map Prod.fst = pairs.map fun p => p.2.toNat := by
  rw [List.map_map]
  rfl

theorem map_snd_place (pairs : List (UInt32 × UInt32)) :
    (pairs.map place).map Prod.snd = pairs.map Prod.fst := by
  rw [List.map_map]
  rfl

/-- The labels as the reader keeps them, the last one first. -/
def placed : List (ℕ × UInt32) :=
  (s.pairs.map place).reverse

theorem perm_placed : (s.placed.map Prod.fst).Perm (List.range s.rowCount.toNat) := by
  rw [placed, List.map_reverse, map_fst_place]
  exact (List.reverse_perm _).trans s.rows_perm

/-- The rows that the entries make up. -/
def rows : List (List Int32) :=
  chunks s.columns.toNat s.rowCount.toNat s.entries

theorem length_rows : s.rows.length = s.rowCount.toNat :=
  length_chunks _ _ _

theorem length_of_mem_rows {row : List Int32} (h : row ∈ s.rows) :
    row.length = s.columns.toNat :=
  length_of_mem_chunks s.length_entries h

theorem flatten_rows : s.rows.flatten = s.entries :=
  flatten_chunks s.length_entries

theorem width_rows : width s.rows = s.columns.toNat := by
  have hlength := s.length_rows
  cases hrows : s.rows with
  | nil =>
    have hpos := s.rowCount_pos
    rw [hrows, List.length_nil] at hlength
    omega
  | cons row rest =>
    exact s.length_of_mem_rows (hrows ▸ List.mem_cons_self)

/-- The matrix. -/
def matrix : ShareMatrix where
  rows := s.rows
  labels := ShareMatrix.inRowOrder s.rowCount.toNat s.placed
  width_pos := by
    rw [s.width_rows]
    exact s.columns_pos
  rectangular row hrow := by
    rw [s.width_rows, s.length_of_mem_rows hrow]
  labels_length := by
    rw [ShareMatrix.length_inRowOrder s.perm_placed, s.length_rows]
  labels_nodup := by
    refine (ShareMatrix.perm_inRowOrder s.perm_placed).nodup_iff.mp ?_
    rw [placed, List.map_reverse, map_snd_place]
    exact List.nodup_reverse.mpr s.ids_nodup

theorem rowCount_matrix : s.matrix.rowCount = s.rowCount.toNat :=
  s.length_rows

theorem columns_matrix : s.matrix.columns = s.columns.toNat :=
  s.width_rows

/-- The label of a row is the id that it comes with. -/
theorem label?_matrix {pair : UInt32 × UInt32} (h : pair ∈ s.pairs) :
    s.matrix.label? pair.2.toNat = some pair.1 := by
  refine ShareMatrix.getElem?_inRowOrder s.perm_placed ?_
  exact List.mem_reverse.mpr (List.mem_map.mpr ⟨pair, h, rfl⟩)

end StoredMatrix

/-! ## Reading labels -/

namespace ShareMatrix

open StoredMatrix

variable {rowCount : ℕ}

/-- Labels for different rows are read in any order. -/
theorem takes_readLabels : ∀ {pairs : List (UInt32 × UInt32)} {placed : List (ℕ × UInt32)},
    (∀ p ∈ pairs, p.2.toNat < rowCount) →
    ((pairs.map place).reverse ++ placed |>.map Prod.fst).Nodup →
    (readLabels rowCount pairs.length placed).Takes (pairs.flatMap pairBytes)
      ((pairs.map place).reverse ++ placed)
  | [], _, _, _ => .pure _
  | (id, row) :: pairs, placed, hlt, hnodup => by
    rw [List.map_cons, List.reverse_cons, List.append_assoc, List.singleton_append] at hnodup ⊢
    have hrest := takes_readLabels (fun p hp => hlt p (List.mem_cons_of_mem _ hp)) hnodup
    have hnew : ¬ placed.any (fun p => p.1 == row.toNat) := by
      intro hany
      obtain ⟨p, hp, heq⟩ := List.any_eq_true.mp hany
      rw [List.map_append, List.map_cons] at hnodup
      refine (List.nodup_cons.mp (List.nodup_append.mp hnodup).2.1).1 ?_
      exact List.mem_map.mpr ⟨p, hp, eq_of_beq heq⟩
    have hrange : ¬ rowCount ≤ row.toNat := not_le.mpr (hlt _ List.mem_cons_self)
    rw [List.flatMap_cons, pairBytes, List.append_assoc]
    refine (Reader.takes_word id).bind ((Reader.takes_length_word row).bind ?_)
    exact .of_not hrange (.of_not hnew hrest)

/-- Labels that were read are for different rows that there are. -/
theorem readLabels_inv : ∀ {count : ℕ} {placed out : List (ℕ × UInt32)} {input rest : List UInt8},
    (placed.map Prod.fst).Nodup → readLabels rowCount count placed input = .ok (out, rest) →
      ∃ pairs : List (UInt32 × UInt32), pairs.length = count ∧
        input = pairs.flatMap pairBytes ++ rest ∧ out = (pairs.map place).reverse ++ placed ∧
        (∀ p ∈ pairs, p.2.toNat < rowCount) ∧ (out.map Prod.fst).Nodup
  | 0, _, _, _, _, hnodup, h => by
    cases h
    exact ⟨[], rfl, rfl, rfl, by simp, hnodup⟩
  | count + 1, placed, out, input, rest, hnodup, h => by
    obtain ⟨id, mid, hid, hlabels⟩ := Reader.bind_inv h
    obtain ⟨row, mid', hrow, hrest⟩ := Reader.bind_inv hlabels
    obtain rfl := Reader.word_inv hid
    obtain ⟨row, rfl, rfl⟩ := Reader.length_inv hrow
    split_ifs at hrest with hrange hold
    · cases hrest
    · cases hrest
    · have hnew : row.toNat ∉ placed.map Prod.fst := by
        intro hmem
        obtain ⟨p, hp, heq⟩ := List.mem_map.mp hmem
        exact hold (List.any_eq_true.mpr ⟨p, hp, beq_iff_eq.mpr heq⟩)
      have hnodup' : (((row.toNat, id) :: placed).map Prod.fst).Nodup :=
        List.nodup_cons.mpr ⟨hnew, hnodup⟩
      obtain ⟨pairs, rfl, rfl, rfl, hlt, hout⟩ := readLabels_inv hnodup' hrest
      refine ⟨(id, row) :: pairs, rfl, ?_, ?_, fun p hp => ?_, hout⟩
      · simp only [List.flatMap_cons, pairBytes, List.append_assoc]
      · simp [place]
      · rcases List.mem_cons.mp hp with rfl | hp
        · exact not_le.mp hrange
        · exact hlt p hp

/-- As many labels as there are rows name all of them. -/
theorem exists_of_readLabels {placed : List (ℕ × UInt32)} {input rest : List UInt8}
    (h : readLabels rowCount rowCount [] input = .ok (placed, rest)) :
    ∃ pairs : List (UInt32 × UInt32), input = pairs.flatMap pairBytes ++ rest ∧
      placed = (pairs.map place).reverse ∧
      (pairs.map fun p => p.2.toNat).Perm (List.range rowCount) := by
  have hnil : (([] : List (ℕ × UInt32)).map Prod.fst).Nodup := List.nodup_nil
  obtain ⟨pairs, hlength, hinput, hplaced, hlt, hnodup⟩ := readLabels_inv hnil h
  rw [List.append_nil] at hplaced
  refine ⟨pairs, hinput, hplaced, perm_range_of_nodup ?_ ?_ (by rw [List.length_map, hlength])⟩
  · rw [hplaced, List.map_reverse, map_fst_place] at hnodup
    exact List.nodup_reverse.mp hnodup
  · intro row hrow
    obtain ⟨p, hp, rfl⟩ := List.mem_map.mp hrow
    exact hlt p hp

/-! ## Reading matrices -/

theorem flatMap_signedWord (rows : List (List Int32)) :
    rows.flatMap (fun row => row.flatMap Frame.signedWord) =
      rows.flatten.flatMap Frame.signedWord := by
  rw [← List.flatMap_assoc, List.flatMap_id']

/-- Rows that were read have the width and the number asked for. -/
theorem rows_inv {columns : ℕ} {rows : List (List Int32)} {input rest : List UInt8}
    (h : Reader.many (Reader.many Reader.signedWord columns) rowCount input = .ok (rows, rest)) :
    rows.length = rowCount ∧ (∀ row ∈ rows, row.length = columns) ∧
      input = rows.flatten.flatMap Frame.signedWord ++ rest := by
  have hwidth {input rest : List UInt8} {row : List Int32}
      (h : Reader.many Reader.signedWord columns input = .ok (row, rest)) :
      row.length = columns :=
    (Reader.many_inv (fun _ => trivial) h).1
  obtain ⟨hlength, hwidths⟩ := Reader.many_inv hwidth h
  refine ⟨hlength, hwidths, ?_⟩
  rw [← flatMap_signedWord]
  exact Reader.eq_flatMap_of_many (Reader.eq_flatMap_of_many Reader.signedWord_inv) h

theorem eq_of_ofParts {rows : List (List Int32)} {labels : List UInt32} {m : ShareMatrix}
    (h : ofParts rows labels = .ok m) : m.rows = rows ∧ m.labels = labels := by
  unfold ofParts at h
  split_ifs at h
  · split at h
    · cases h
    · split at h
      · cases h
      · cases h
        exact ⟨rfl, rfl⟩
  · split at h <;> cases h

theorem eq_of_parts {m m' : ShareMatrix} (hrows : m.rows = m'.rows)
    (hlabels : m.labels = m'.labels) : m = m' := by
  cases m
  cases m'
  cases hrows
  cases hlabels
  rfl

end ShareMatrix

namespace StoredMatrix

/-- A matrix can be stored with labels in any order that is put right again. -/
theorem exists_matrix_eq {m : ShareMatrix} {r c : UInt32} {pairs : List (UInt32 × UInt32)}
    (hrowCount : m.rowCount = r.toNat) (hcolumns : m.columns = c.toNat)
    (hrows : (pairs.map fun p => p.2.toNat).Perm (List.range r.toNat))
    (hlabels : m.labels = ShareMatrix.inRowOrder r.toNat (pairs.map place).reverse) :
    ∃ s : StoredMatrix, s.rowCount = r ∧ s.columns = c ∧ s.entries = m.rows.flatten ∧
      s.pairs = pairs ∧ s.matrix = m := by
  have hlength : m.rows.length = r.toNat := hrowCount
  have hwidths : ∀ row ∈ m.rows, row.length = c.toNat := fun row hrow =>
    (m.rectangular row hrow).trans hcolumns
  have hperm : ((pairs.map place).reverse.map Prod.fst).Perm (List.range r.toNat) := by
    rw [List.map_reverse, map_fst_place]
    exact (List.reverse_perm _).trans hrows
  have hids : (pairs.map Prod.fst).Nodup := by
    have hnodup := (ShareMatrix.perm_inRowOrder hperm).nodup_iff.mpr (hlabels ▸ m.labels_nodup)
    rw [List.map_reverse, map_snd_place] at hnodup
    exact List.nodup_reverse.mp hnodup
  let s : StoredMatrix :=
    { rowCount := r, columns := c, entries := m.rows.flatten, pairs
      rowCount_pos := by
        rw [← hlength]
        exact m.rows_pos
      columns_pos := hcolumns ▸ m.width_pos
      length_entries := by rw [length_flatten_of_length hwidths, hlength]
      rows_perm := hrows
      ids_nodup := hids }
  have hsrows : s.matrix.rows = m.rows := by
    change chunks c.toNat r.toNat m.rows.flatten = m.rows
    rw [← hlength, chunks_flatten hwidths]
  exact ⟨s, rfl, rfl, rfl, rfl, ShareMatrix.eq_of_parts hsrows hlabels.symm⟩

variable (s : StoredMatrix)

theorem takes_entries :
    (Reader.many (Reader.many Reader.signedWord s.columns.toNat) s.rowCount.toNat).Takes
      (s.entries.flatMap Frame.signedWord) s.rows := by
  have hrow : ∀ row ∈ s.rows, (Reader.many Reader.signedWord s.columns.toNat).Takes
      (row.flatMap Frame.signedWord) row := by
    intro row hrow
    rw [← s.length_of_mem_rows hrow]
    exact Reader.takes_many fun n _ => Reader.takes_signedWord n
  have hrows := Reader.takes_many hrow
  rwa [s.length_rows, ShareMatrix.flatMap_signedWord, s.flatten_rows] at hrows

theorem takes_labels :
    (ShareMatrix.readLabels s.rowCount.toNat s.rowCount.toNat []).Takes
      (s.pairs.flatMap pairBytes) s.placed := by
  have hlength : s.pairs.length = s.rowCount.toNat := by
    simpa using s.rows_perm.length_eq
  have hlt : ∀ p ∈ s.pairs, p.2.toNat < s.rowCount.toNat := fun p hp =>
    List.mem_range.mp (s.rows_perm.mem_iff.mp (List.mem_map.mpr ⟨p, hp, rfl⟩))
  have hnodup : (((s.pairs.map place).reverse ++ []).map Prod.fst).Nodup := by
    rw [List.append_nil]
    exact ShareMatrix.nodup_rows_of_perm s.perm_placed
  have htakes := ShareMatrix.takes_readLabels hlt hnodup
  rwa [hlength, List.append_nil] at htakes

/-- The bytes of a stored matrix are read as the matrix. -/
theorem takes : ShareMatrix.read.Takes s.bytes s.matrix := by
  have hrowCount : ¬ s.rowCount.toNat = 0 := s.rowCount_pos.ne'
  have hcolumns : ¬ s.columns.toNat = 0 := s.columns_pos.ne'
  refine (Reader.takes_length_word _).bind ((Reader.takes_length_word _).bind ?_)
  refine .of_not hrowCount (.of_not hcolumns (s.takes_entries.bind ?_))
  refine (Reader.takes_length_word _).bind ((Reader.takes_length_word _).bind ?_)
  refine .of_not (by simp) ((Reader.takes_length_word _).bind (.of_not (by simp) ?_))
  exact s.takes_labels.bind_nil (.check s.matrix.ofParts_rows_labels)

/-- What was read as a matrix starts with the bytes of a stored one. -/
theorem exists_of_read {input rest : List UInt8} {m : ShareMatrix}
    (h : ShareMatrix.read input = .ok (m, rest)) :
    ∃ s : StoredMatrix, input = s.bytes ++ rest ∧ s.matrix = m := by
  obtain ⟨rowCount, mid₁, hrowCount, h₁⟩ := Reader.bind_inv h
  obtain ⟨columns, mid₂, hcolumns, h₂⟩ := Reader.bind_inv h₁
  split_ifs at h₂
  · cases h₂
  · cases h₂
  obtain ⟨rows, mid₃, hrows, h₃⟩ := Reader.bind_inv h₂
  obtain ⟨restatedColumns, mid₄, hrestatedColumns, h₄⟩ := Reader.bind_inv h₃
  obtain ⟨restatedRows, mid₅, hrestatedRows, h₅⟩ := Reader.bind_inv h₄
  split_ifs at h₅ with hrestated
  · cases h₅
  obtain ⟨count, mid₆, hcount, h₆⟩ := Reader.bind_inv h₅
  split_ifs at h₆ with hcount_ne
  · cases h₆
  obtain ⟨placed, mid₇, hlabels, h₇⟩ := Reader.bind_inv h₆
  obtain ⟨hparts, rfl⟩ := Reader.check_inv h₇
  -- all dimensions are those of the first two words
  obtain ⟨r, rfl, rfl⟩ := Reader.length_inv hrowCount
  obtain ⟨c, rfl, rfl⟩ := Reader.length_inv hcolumns
  obtain ⟨rfl, rfl⟩ : restatedColumns = c.toNat ∧ restatedRows = r.toNat := by
    simpa only [ne_eq, not_or, not_not] using hrestated
  obtain rfl : count = r.toNat := not_not.mp hcount_ne
  obtain rfl := Reader.eq_of_length hrestatedColumns
  obtain rfl := Reader.eq_of_length hrestatedRows
  obtain rfl := Reader.eq_of_length hcount
  obtain ⟨hlength, hwidths, rfl⟩ := ShareMatrix.rows_inv hrows
  obtain ⟨pairs, rfl, rfl, hperm⟩ := ShareMatrix.exists_of_readLabels hlabels
  obtain ⟨rfl, hmlabels⟩ := ShareMatrix.eq_of_ofParts hparts
  have hwidth : m.columns = c.toNat := by
    obtain ⟨row, hrow⟩ := List.exists_mem_of_length_pos m.rows_pos
    exact (m.rectangular row hrow).symm.trans (hwidths row hrow)
  obtain ⟨s, rfl, rfl, hentries, rfl, hs⟩ := exists_matrix_eq hlength hwidth hperm hmlabels
  exact ⟨s, by simp only [bytes, hentries, List.append_assoc], hs⟩

end StoredMatrix

/-! ## Writing matrices -/

namespace ShareMatrix

open StoredMatrix

/-- The labels by row, each with its row. -/
def labelPairs (m : ShareMatrix) : List (UInt32 × UInt32) :=
  m.labels.zipIdx.map fun p => (p.1, .ofNat p.2)

section Write

variable {m : ShareMatrix} (hrowCount : m.rowCount < 2 ^ 32)

include hrowCount

theorem index_lt {p : UInt32 × ℕ} (h : p ∈ m.labels.zipIdx) : p.2 < 2 ^ 32 := by
  have hcount : m.labels.length = m.rowCount := m.labels_length
  have hlt := (List.mem_zipIdx h).2.1
  omega

theorem toNat_index {p : UInt32 × ℕ} (h : p ∈ m.labels.zipIdx) :
    (UInt32.ofNat p.2).toNat = p.2 :=
  UInt32.toNat_ofNat_of_lt' (index_lt hrowCount h)

theorem rows_labelPairs :
    (m.labelPairs.map fun p => p.2.toNat) = List.range m.rowCount := by
  have hcount : m.labels.length = m.rowCount := m.labels_length
  rw [labelPairs, List.map_map, List.range_eq_range', ← hcount, ← List.zipIdx_map_snd 0]
  exact List.map_congr_left fun p hp => toNat_index hrowCount hp

theorem inRowOrder_labelPairs :
    inRowOrder m.rowCount (m.labelPairs.map place).reverse = m.labels := by
  refine inRowOrder_eq m.labels_length fun row id hid => lookup_eq_some_of_mem ?_ ?_
  · rw [List.map_reverse, map_fst_place, rows_labelPairs hrowCount]
    exact List.nodup_reverse.mpr List.nodup_range
  · have hmem : (id, row) ∈ m.labels.zipIdx := List.mem_zipIdx_iff_getElem?.mpr hid
    refine List.mem_reverse.mpr (List.mem_map.mpr ⟨_, List.mem_map.mpr ⟨_, hmem, rfl⟩, ?_⟩)
    exact Prod.ext (toNat_index hrowCount hmem) rfl

/-- A matrix whose dimensions fit words is written as the stored matrix that lists the labels
by row. -/
theorem exists_stored (hcolumns : m.columns < 2 ^ 32) :
    ∃ s : StoredMatrix, s.matrix = m ∧ m.write = .ok s.bytes := by
  have hr : (UInt32.ofNat m.rowCount).toNat = m.rowCount := UInt32.toNat_ofNat_of_lt' hrowCount
  have hc : (UInt32.ofNat m.columns).toNat = m.columns := UInt32.toNat_ofNat_of_lt' hcolumns
  obtain ⟨s, hs, hs', hentries, hpairs, hmatrix⟩ := exists_matrix_eq hr.symm hc.symm
    (.of_eq (by rw [hr, rows_labelPairs hrowCount]))
    (by rw [hr, inRowOrder_labelPairs hrowCount])
  have hrowWord : Frame.length m.rowCount = .ok (Frame.word s.rowCount) :=
    Frame.length_eq_ok.mpr ⟨hrowCount, by rw [hs]⟩
  have hcolumnWord : Frame.length m.columns = .ok (Frame.word s.columns) :=
    Frame.length_eq_ok.mpr ⟨hcolumns, by rw [hs']⟩
  have hlabelWord : Frame.length m.labels.length = .ok (Frame.word s.rowCount) := by
    rw [m.labels_length]
    exact hrowWord
  have hlabels : Frame.sequence (m.labels.zipIdx.map fun pair =>
      Frame.sequence [.ok (Frame.word pair.1), Frame.length pair.2]) =
        .ok (s.pairs.flatMap pairBytes) := by
    rw [hpairs, labelPairs, List.flatMap_map]
    refine Frame.sequence_map_eq_ok fun p hp => ?_
    rw [Frame.length_eq_ok.mpr ⟨index_lt hrowCount hp, rfl⟩]
    exact congrArg Except.ok (congrArg _ (List.append_nil _))
  refine ⟨s, hmatrix, ?_⟩
  unfold write
  simp only [hrowWord, hcolumnWord, hlabelWord]
  refine Frame.sequence_append_eq_ok.mpr ⟨_, _, rfl, hlabels, ?_⟩
  simp only [bytes, hentries, flatMap_signedWord, List.append_assoc, List.append_nil]

end Write

/-- Only matrices whose dimensions fit words can be written. -/
theorem lt_of_write {m : ShareMatrix} {bytes : List UInt8} (h : m.write = .ok bytes) :
    m.rowCount < 2 ^ 32 ∧ m.columns < 2 ^ 32 := by
  obtain ⟨head, tail, hhead, -, -⟩ := Frame.sequence_append_eq_ok.mp h
  obtain ⟨b₁, rest₁, hrowCount, hrest₁, -⟩ := Frame.sequence_cons_eq_ok.mp hhead
  obtain ⟨b₂, rest₂, hcolumns, -, -⟩ := Frame.sequence_cons_eq_ok.mp hrest₁
  exact ⟨(Frame.length_eq_ok.mp hrowCount).1, (Frame.length_eq_ok.mp hcolumns).1⟩

/-- What a matrix is written as is read as the matrix. -/
theorem takes_of_write {m : ShareMatrix} {bytes : List UInt8} (h : m.write = .ok bytes) :
    read.Takes bytes m := by
  obtain ⟨hrowCount, hcolumns⟩ := lt_of_write h
  obtain ⟨s, hs, hwrite⟩ := exists_stored hrowCount hcolumns
  obtain rfl := Except.ok.inj (h.symm.trans hwrite)
  exact hs ▸ s.takes

/-- A matrix that was read can be written. -/
theorem exists_write {m : ShareMatrix} {input rest : List UInt8}
    (h : read input = .ok (m, rest)) : ∃ bytes, m.write = .ok bytes := by
  obtain ⟨s, -, rfl⟩ := StoredMatrix.exists_of_read h
  obtain ⟨s', -, hwrite⟩ := exists_stored (s.rowCount_matrix ▸ s.rowCount.toNat_lt)
    (s.columns_matrix ▸ s.columns.toNat_lt)
  exact ⟨s'.bytes, hwrite⟩

end ShareMatrix

/-- A byte string is read as a matrix exactly if it starts with the bytes of a stored matrix,
and those are all that is taken. The matrix has the entries that are stored, and the label of
each row is the id that comes with it, in whatever order the labels are. Every matrix whose
dimensions fit words is read from what it is written as. -/
theorem matrix_grammar :
    (∀ input, (∃ m, Reader.ofBytes ShareMatrix.read input = .ok m) ↔
      ∃ s : StoredMatrix, s.bytes <+: input) ∧
    (∀ (s : StoredMatrix) (rest : List UInt8), ∃ m,
      ShareMatrix.read (s.bytes ++ rest) = .ok (m, rest) ∧
      m.rowCount = s.rowCount.toNat ∧ m.columns = s.columns.toNat ∧ m.rows.flatten = s.entries ∧
      ∀ pair ∈ s.pairs, m.label? pair.2.toNat = some pair.1) ∧
    ∀ m : ShareMatrix, m.rowCount < 2 ^ 32 → m.columns < 2 ^ 32 →
      ∃ bytes, m.write = .ok bytes ∧ Reader.ofBytes ShareMatrix.read bytes = .ok m := by
  refine ⟨fun input => ⟨?_, ?_⟩, fun s rest => ?_, fun m hrowCount hcolumns => ?_⟩
  · rintro ⟨m, hm⟩
    obtain ⟨⟨m, rest⟩, hread, -⟩ := exists_of_map_eq_ok hm
    obtain ⟨s, rfl, -⟩ := StoredMatrix.exists_of_read hread
    exact ⟨s, List.prefix_append _ _⟩
  · rintro ⟨s, rest, rfl⟩
    exact ⟨s.matrix, s.takes.ofBytes_eq rest⟩
  · exact ⟨s.matrix, s.takes.append rest, s.rowCount_matrix, s.columns_matrix, s.flatten_rows,
      fun pair hpair => s.label?_matrix hpair⟩
  · obtain ⟨s, rfl, hwrite⟩ := ShareMatrix.exists_stored hrowCount hcolumns
    have hread := s.takes.ofBytes_eq []
    rw [List.append_nil] at hread
    exact ⟨s.bytes, hwrite, hread⟩

/-- Labels that come in the opposite order, and bytes after the matrix. -/
theorem matrix_of_labels_reversed :
    ∃ (s : StoredMatrix) (m : ShareMatrix), s.entries = [1, -1, 0, 0x7FFFFFFF] ∧
      s.pairs = [(7, 1), (3, 0)] ∧ ShareMatrix.read (s.bytes ++ [255]) = .ok (m, [255]) ∧
      m.rows.flatten = [1, -1, 0, 0x7FFFFFFF] ∧ m.label? 0 = some 3 ∧ m.label? 1 = some 7 := by
  let s : StoredMatrix :=
    { rowCount := 2, columns := 2, entries := [1, -1, 0, 0x7FFFFFFF], pairs := [(7, 1), (3, 0)]
      rowCount_pos := by decide
      columns_pos := by decide
      length_entries := rfl
      rows_perm := by decide
      ids_nodup := by decide }
  obtain ⟨m, hread, -, -, hentries, hlabels⟩ := matrix_grammar.2.1 s [255]
  exact ⟨s, m, rfl, rfl, hread, hentries, hlabels (3, 0) (by simp [s]),
    hlabels (7, 1) (by simp [s])⟩

end AttributeEncryption
