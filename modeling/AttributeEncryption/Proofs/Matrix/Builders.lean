import AttributeEncryption.Proofs.Matrix.Tables
import AttributeEncryption.Proofs.Runs
import AttributeEncryption.Proofs.SpanProgram.Shape

/-!
# Matrices that are built row by row

Rows are offered to a builder one after the other, and it refuses those whose label it has
already. Its tables are updated step by step (`BuilderTables.addRow`), so a refused row could leave
something behind, and the greatest width is kept beside the rows that it is that of.

Along every run the tables are those of the accepted rows (`MatrixBuilder.rows_runCalls`,
`BuilderTables.call_tables`). The matrix is therefore the one that is made at once from the accepted
rows, extended with zeros to the longest of them (`built_from_accepted`).
-/

namespace AttributeEncryption

/-! ## Calls -/

namespace MatrixBuilder

variable {b : MatrixBuilder} {c : Offer}

theorem call_of_mem (h : c.1 ∈ b.labels) : b.call c = (.error (.duplicateAttribute c.1), b) := by
  have hadd : b.add c.1 c.2 = .error (.duplicateAttribute c.1) := dif_pos h
  rw [call, hadd]

theorem exists_call_of_not_mem (h : c.1 ∉ b.labels) :
    ∃ b', b.call c = (.ok b.rows.length, b') ∧ b'.rows = b.rows ++ [c.2] ∧
      b'.labels = b.labels ++ [c.1] := by
  obtain ⟨b', hadd, hrows, hlabels⟩ : ∃ b', b.add c.1 c.2 = .ok b' ∧
      b'.rows = b.rows ++ [c.2] ∧ b'.labels = b.labels ++ [c.1] := ⟨_, dif_neg h, rfl, rfl⟩
  refine ⟨b', ?_, hrows, hlabels⟩
  rw [call, hadd]
  rfl

end MatrixBuilder

/-! ## Runs -/

/-- The rows that calls with these results accepted. -/
def acceptedRows (calls : List Offer) (results : List (Except Failure ℕ)) : List Offer :=
  (calls.zip results).filterMap fun (c, result) => result.toOption.map fun _ => c

theorem acceptedRows_cons (c : Offer) (calls : List Offer) (result : Except Failure ℕ)
    (results : List (Except Failure ℕ)) :
    acceptedRows (c :: calls) (result :: results) =
      (result.toOption.map fun _ => c).toList ++ acceptedRows calls results := by
  unfold acceptedRows
  rw [List.zip_cons_cons, List.filterMap_cons]
  cases result <;> rfl

namespace MatrixBuilder

/-- A call appends its row if it is accepted. -/
theorem rows_call (b : MatrixBuilder) (c : Offer) :
    (b.call c).2.rows = b.rows ++ ((b.call c).1.toOption.map fun _ => c).toList.map Prod.snd ∧
      (b.call c).2.labels =
        b.labels ++ ((b.call c).1.toOption.map fun _ => c).toList.map Prod.fst := by
  by_cases h : c.1 ∈ b.labels
  · rw [call_of_mem h]
    exact ⟨(List.append_nil _).symm, (List.append_nil _).symm⟩
  · obtain ⟨b', hcall, hrows, hlabels⟩ := exists_call_of_not_mem h
    rw [hcall]
    exact ⟨hrows, hlabels⟩

/-- A run appends the rows that it accepts. -/
theorem rows_runCalls (b : MatrixBuilder) (calls : List Offer) :
    (runCalls call b calls).2.rows =
        b.rows ++ (acceptedRows calls (runCalls call b calls).1).map Prod.snd ∧
      (runCalls call b calls).2.labels =
        b.labels ++ (acceptedRows calls (runCalls call b calls).1).map Prod.fst := by
  induction calls generalizing b with
  | nil => exact ⟨(List.append_nil _).symm, (List.append_nil _).symm⟩
  | cons c calls ih =>
    obtain ⟨hrows, hlabels⟩ := b.rows_call c
    obtain ⟨hrest, hrest'⟩ := ih (b.call c).2
    rw [runCalls_cons, acceptedRows_cons, List.map_append, List.map_append]
    simp only
    rw [hrest, hrest', hrows, hlabels, List.append_assoc, List.append_assoc]
    exact ⟨rfl, rfl⟩

end MatrixBuilder

/-! ## Finishing -/

/-- A row that is extended with zeros. -/
def extend (columns : ℕ) (row : List Int32) : List Int32 :=
  row ++ List.replicate (columns - row.length) 0

theorem resize_eq_extend {columns : ℕ} {row : List Int32} (h : row.length ≤ columns) :
    resize columns row = extend columns row := by
  unfold resize extend
  rw [List.take_of_length_le h]

theorem greatestWidth_pos_iff {rows : List (List Int32)} :
    0 < greatestWidth rows ↔ ∃ row ∈ rows, row ≠ [] := by
  constructor
  · intro hpos
    by_contra hempty
    have hzero : greatestWidth rows ≤ 0 := greatestWidth_le fun row hrow => by
      rw [not_not.mp fun hne => hempty ⟨row, hrow, hne⟩, List.length_nil]
    exact absurd hpos (Nat.not_lt_of_le hzero)
  · rintro ⟨row, hrow, hne⟩
    exact (List.length_pos_of_ne_nil hne).trans_le (length_le_greatestWidth hrow)

/-- Finishing fails if no row has an entry, and else gives the matrix that is made at once from
the extended rows. -/
theorem MatrixBuilder.finish_cases (b : MatrixBuilder) :
    ((∀ row ∈ b.rows, row = []) ∧ b.finish = .error .emptyMatrix) ∨
      (∃ row ∈ b.rows, row ≠ []) ∧ ∃ m, b.finish = .ok m ∧
        ShareMatrix.ofParts (b.rows.map (extend (greatestWidth b.rows))) b.labels = .ok m := by
  by_cases hpos : 0 < greatestWidth b.rows
  · obtain ⟨m, hm, hrows, hlabels⟩ : ∃ m, b.finish = .ok m ∧
        m.rows = b.rows.map (resize (greatestWidth b.rows)) ∧ m.labels = b.labels :=
      ⟨_, dif_pos hpos, rfl, rfl⟩
    have hextend : m.rows = b.rows.map (extend (greatestWidth b.rows)) := by
      rw [hrows]
      exact List.map_congr_left fun row hrow => resize_eq_extend (length_le_greatestWidth hrow)
    refine Or.inr ⟨greatestWidth_pos_iff.mp hpos, m, hm, ?_⟩
    rw [← hextend, ← hlabels]
    exact m.ofParts_rows_labels
  · refine Or.inl ⟨fun row hrow => ?_, dif_neg hpos⟩
    by_contra hne
    exact hpos (greatestWidth_pos_iff.mpr ⟨row, hrow, hne⟩)

/-- Whatever is offered to a builder, it keeps the rows that it accepts, in their order, with the
width of the longest of them. It refuses a row exactly if its label was accepted before, and then
nothing changes. Finishing fails exactly if no accepted row has an entry, and else it gives the
matrix that is made at once from the accepted rows, extended with zeros to the longest. -/
theorem built_from_accepted (calls : List Offer) :
    ∃ (results : List (Except Failure ℕ)) (m : MatrixBuilder) (b : BuilderTables)
      (accepted : List Offer),
      runCalls MatrixBuilder.call .empty calls = (results, m) ∧
      runCalls BuilderTables.call .empty calls = (results, b) ∧
      accepted = acceptedRows calls results ∧
      b = { rows := accepted.map Prod.snd
            labels := accepted.map Prod.fst
            rowOf := fun id => (accepted.map Prod.fst).idxOf? id
            width := greatestWidth (accepted.map Prod.snd) } ∧
      (∀ c, runCalls BuilderTables.call .empty (calls ++ [c]) =
        (results ++ [(b.call c).1], (b.call c).2)) ∧
      (∀ c, b.call c =
        if c.1 ∈ accepted.map Prod.fst then (.error (.duplicateAttribute c.1), b)
        else (.ok accepted.length, b.push c)) ∧
      (((∀ c ∈ accepted, c.2 = []) ∧ b.finish = .error .emptyMatrix ∧
          m.finish = .error .emptyMatrix) ∨
        (∃ c ∈ accepted, c.2 ≠ []) ∧ ∃ made : ShareMatrix,
          m.finish = .ok made ∧ b.finish = .ok made.tables ∧
          ShareMatrix.ofParts (accepted.map fun c =>
            extend (greatestWidth (accepted.map Prod.snd)) c.2) (accepted.map Prod.fst) = .ok made ∧
          MatrixTables.ofParts (accepted.map fun c =>
            extend (greatestWidth (accepted.map Prod.snd)) c.2) (accepted.map Prod.fst) =
              .ok made.tables) := by
  rcases hrun : runCalls MatrixBuilder.call .empty calls with ⟨results, m⟩
  have htables : runCalls BuilderTables.call .empty calls = (results, m.tables) := by
    have hview := runCalls_view MatrixBuilder.tables BuilderTables.call_tables .empty calls
    rwa [hrun] at hview
  obtain ⟨hrows, hlabels⟩ : m.rows = (acceptedRows calls results).map Prod.snd ∧
      m.labels = (acceptedRows calls results).map Prod.fst := by
    have hrunRows := MatrixBuilder.empty.rows_runCalls calls
    rwa [hrun] at hrunRows
  have hlength : m.tables.rows.length = (acceptedRows calls results).length := by
    change m.rows.length = _
    rw [hrows, List.length_map]
  have hextended : m.rows.map (extend (greatestWidth m.rows)) =
      (acceptedRows calls results).map fun c =>
        extend (greatestWidth ((acceptedRows calls results).map Prod.snd)) c.2 := by
    rw [hrows, List.map_map]
    rfl
  refine ⟨results, m, m.tables, _, rfl, htables, rfl, ?_, fun c => ?_, fun c => ?_, ?_⟩
  · unfold MatrixBuilder.tables
    rw [hrows, hlabels]
  · rw [runCalls_concat, htables]
  · have hmem : (m.tables.rowOf c.1).isSome ↔ c.1 ∈ (acceptedRows calls results).map Prod.fst :=
      hlabels ▸ List.isSome_idxOf?
    rw [BuilderTables.call_eq, hlength]
    simp only [hmem]
  · rcases m.finish_cases with ⟨hempty, hfinish⟩ | ⟨⟨row, hrow, hne⟩, made, hfinish, hparts⟩
    · refine Or.inl ⟨fun c hc => hempty c.2 ?_, ?_, hfinish⟩
      · rw [hrows]
        exact List.mem_map_of_mem hc
      · rw [BuilderTables.finish_eq, hfinish]
        rfl
    · rw [hextended, hlabels] at hparts
      rw [hrows] at hrow
      obtain ⟨c, hc, rfl⟩ := List.mem_map.mp hrow
      refine Or.inr ⟨⟨c, hc, hne⟩, made, hfinish, ?_, hparts, ?_⟩
      · rw [BuilderTables.finish_eq, hfinish]
        rfl
      · rw [MatrixTables.ofParts_eq, hparts]
        rfl

-- A long row that is refused adds no column.
example :
    (runCalls MatrixBuilder.call .empty
      [(1, [1]), (1, [0, 0, 0, 5]), (2, []), (3, [2, 3])]).2.finish.map ShareMatrix.rows =
        .ok [[1, 0], [0, 0], [2, 3]] := by
  decide

end AttributeEncryption
