/-!
# Maps from ids

A map from 32-bit ids, kept as its entries in ascending order of the ids. Two maps with
the same entries are the same value.
-/

namespace AttributeEncryption

/-- A map from ids. -/
structure IdMap (α : Type) where
  /-- The entries by ascending id. -/
  entries : List (UInt32 × α)
  /-- The ids ascend. -/
  ascending : entries.Pairwise fun a b => a.1 < b.1

namespace IdMap

variable {α : Type}

/-- The map without entries. -/
def empty : IdMap α :=
  ⟨[], .nil⟩

/-- The number of entries. -/
def size (m : IdMap α) : Nat :=
  m.entries.length

/-- The ids, ascending. -/
def ids (m : IdMap α) : List UInt32 :=
  m.entries.map (·.1)

/-- The value at an id. -/
def get? (m : IdMap α) (id : UInt32) : Option α :=
  (m.entries.find? (·.1 == id)).map (·.2)

/-- Whether there is a value at an id. -/
def contains (m : IdMap α) (id : UInt32) : Bool :=
  (m.get? id).isSome

/-- The entries with one more at its place; an entry with its id is replaced. -/
def insertEntry (id : UInt32) (a : α) : List (UInt32 × α) → List (UInt32 × α)
  | [] => [(id, a)]
  | e :: rest =>
    if id < e.1 then (id, a) :: e :: rest
    else if id = e.1 then (id, a) :: rest
    else e :: insertEntry id a rest

theorem mem_insertEntry {id : UInt32} {a : α} {e : UInt32 × α} {entries : List (UInt32 × α)}
    (h : e ∈ insertEntry id a entries) : e = (id, a) ∨ e ∈ entries := by
  induction entries with
  | nil => exact .inl (List.mem_singleton.mp h)
  | cons first rest ih =>
    simp only [insertEntry] at h
    split at h
    · rcases List.mem_cons.mp h with h | h
      · exact .inl h
      · exact .inr h
    · split at h
      · rcases List.mem_cons.mp h with h | h
        · exact .inl h
        · exact .inr (List.mem_cons_of_mem _ h)
      · rcases List.mem_cons.mp h with h | h
        · exact .inr (h ▸ List.mem_cons_self)
        · exact (ih h).imp_right (List.mem_cons_of_mem _)

theorem pairwise_insertEntry {id : UInt32} {a : α} {entries : List (UInt32 × α)}
    (h : entries.Pairwise fun a b => a.1 < b.1) :
    (insertEntry id a entries).Pairwise fun a b => a.1 < b.1 := by
  induction entries with
  | nil => simp [insertEntry]
  | cons first rest ih =>
    obtain ⟨hfirst, hrest⟩ := List.pairwise_cons.mp h
    simp only [insertEntry]
    split
    · next hlt =>
      refine List.pairwise_cons.mpr ⟨fun e he => ?_, h⟩
      rcases List.mem_cons.mp he with rfl | he
      · exact hlt
      · exact UInt32.lt_trans hlt (hfirst e he)
    · split
      · next heq =>
        subst heq
        exact List.pairwise_cons.mpr ⟨hfirst, hrest⟩
      · next hlt hne =>
        refine List.pairwise_cons.mpr ⟨fun e he => ?_, ih hrest⟩
        rcases mem_insertEntry he with rfl | he
        · rcases UInt32.lt_or_lt_of_ne hne with h' | h'
          · exact absurd h' hlt
          · exact h'
        · exact hfirst e he

/-- The map with a value at an id, in the place of the one that was there. -/
def insert (m : IdMap α) (id : UInt32) (a : α) : IdMap α :=
  ⟨insertEntry id a m.entries, pairwise_insertEntry m.ascending⟩

/-- The map without an id. -/
def erase (m : IdMap α) (id : UInt32) : IdMap α :=
  ⟨m.entries.filter fun e => e.1 != id, m.ascending.filter _⟩

end IdMap

end AttributeEncryption
