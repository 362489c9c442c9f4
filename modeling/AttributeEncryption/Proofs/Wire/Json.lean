import AttributeEncryption.Proofs.Results
import AttributeEncryption.Sharing.Matrix

/-!
# JSON forms

Numbers and lists are given back by their JSON forms, and so is a matrix
(`ShareMatrix.ofJson_toJson`), whose parts are checked once more.
-/

namespace AttributeEncryption

namespace Json

/-- An integer in the range that is asked for. -/
theorem integerBetween_integer {low high n : Int} (hlow : low ≤ n) (hhigh : n ≤ high) :
    (integer n).integerBetween low high = .ok n :=
  if_pos ⟨hlow, hhigh⟩

theorem asUInt32_ofUInt32 (n : UInt32) : asUInt32 (ofUInt32 n) = .ok n := by
  have hlt := n.toNat_lt
  unfold asUInt32 ofUInt32
  rw [integerBetween_integer (by omega) (by omega)]
  exact congrArg Except.ok UInt32.ofNat_toNat

theorem asInt32_ofInt32 (n : Int32) : asInt32 (ofInt32 n) = .ok n := by
  have hle := n.le_toInt
  have hlt := n.toInt_lt
  unfold asInt32 ofInt32
  rw [integerBetween_integer (by omega) (by omega)]
  exact congrArg Except.ok (Int32.ofInt_toInt n)

/-- A list is given back if its items are. -/
theorem asList_list {α : Type} {read : Json → Except Refusal α} {write : α → Json}
    (h : ∀ a, read (write a) = .ok a) (l : List α) :
    asList read (list (l.map write)) = .ok l := by
  unfold asList
  simp only [List.mapM_map]
  have hitems := mapM_eq_ok (f := read ∘ write) (g := id) (l := l) fun a _ => h a
  rwa [List.map_id] at hitems

end Json

/-- A matrix is given back by its JSON form. -/
theorem ShareMatrix.ofJson_toJson (m : ShareMatrix) : ofJson m.toJson = .ok m := by
  have hfields : m.toJson.asFields ["matrix", "attribute_ids"] =
      .ok [some (.list (m.rows.map fun row => .list (row.map .ofInt32))),
        some (.list (m.labels.map .ofUInt32))] := rfl
  have hrows := Json.asList_list (Json.asList_list Json.asInt32_ofInt32) m.rows
  have hlabels := Json.asList_list Json.asUInt32_ofUInt32 m.labels
  unfold ofJson
  rw [hfields, ok_bind]
  simp only [Json.required]
  rw [hrows, ok_bind, hlabels, ok_bind, ofParts_rows_labels]
  rfl

end AttributeEncryption
