import AttributeEncryption.IdMap
import AttributeEncryption.Suite

/-!
# The attribute registry

Registered attributes, each with an id, a name and a random point. No two of them share
an id or a name; that is part of the type. `Registry.insert` is the only way in, for new
attributes and for stored ones.
-/

namespace AttributeEncryption

/-- A registered attribute without its id. -/
structure Attribute (P : Type) where
  /-- The name. -/
  name : String
  /-- The point that stands for the attribute in keys and ciphertexts. -/
  point : P

/-- The names of some entries. -/
def namesOf {P : Type} (entries : List (UInt32 × Attribute P)) : List String :=
  entries.map fun e => e.2.name

/-- The registered attributes. -/
structure Registry (P : Type) where
  /-- The attributes by id. -/
  attributes : IdMap (Attribute P)
  /-- No two attributes have the same name. -/
  names_nodup : (namesOf attributes.entries).Nodup

theorem nodup_namesOf_insertEntry {P : Type} {id : UInt32} {a : Attribute P}
    {entries : List (UInt32 × Attribute P)} (hnodup : (namesOf entries).Nodup)
    (hname : a.name ∉ namesOf entries) :
    (namesOf (IdMap.insertEntry id a entries)).Nodup := by
  induction entries with
  | nil => simp [IdMap.insertEntry, namesOf]
  | cons first rest ih =>
    simp only [namesOf, List.map_cons, List.nodup_cons] at hnodup ih ⊢
    simp only [namesOf, List.map_cons, List.mem_cons, not_or] at hname
    simp only [IdMap.insertEntry]
    split
    · simp only [List.map_cons, List.nodup_cons, List.mem_cons, not_or]
      exact ⟨hname, hnodup⟩
    · split
      · simp only [List.map_cons, List.nodup_cons]
        exact ⟨hname.2, hnodup.2⟩
      · simp only [List.map_cons, List.nodup_cons]
        refine ⟨fun hmem => ?_, ih hnodup.2 hname.2⟩
        obtain ⟨e, he, heq⟩ := List.mem_map.mp hmem
        rcases IdMap.mem_insertEntry he with rfl | he
        · exact hname.1 heq
        · exact hnodup.1 (List.mem_map.mpr ⟨e, he, heq⟩)

namespace Registry

variable {P : Type}

/-- The registry without attributes. -/
def empty : Registry P :=
  ⟨.empty, List.nodup_nil⟩

/-- The number of attributes. -/
def size (r : Registry P) : Nat :=
  r.attributes.size

/-- The id of a name. -/
def idOf? (r : Registry P) (name : String) : Option UInt32 :=
  (r.attributes.entries.find? (·.2.name == name)).map (·.1)

/-- The attribute of an id. -/
def attribute? (r : Registry P) (id : UInt32) : Option (Attribute P) :=
  r.attributes.get? id

/-- The attribute of a name, with its id. -/
def named? (r : Registry P) (name : String) : Option (UInt32 × Attribute P) :=
  r.attributes.entries.find? (·.2.name == name)

/-- The id that a new attribute gets: one more than the greatest one, but never more than
the greatest 32-bit number. -/
def nextId (r : Registry P) : UInt32 :=
  match r.attributes.entries.getLast? with
  | none => 0
  | some (id, _) => if id = 0xFFFFFFFF then id else id + 1

/-- The registry with one more attribute. A name that is taken is reported before an id
that is. -/
def insert (r : Registry P) (id : UInt32) (a : Attribute P) : Except Failure (Registry P) :=
  if h : a.name ∈ namesOf r.attributes.entries then .error (.attributeExists a.name)
  else if r.attributes.contains id then .error (.invalidPublicParameters (.idAssignedTwice id))
  else .ok ⟨r.attributes.insert id a, nodup_namesOf_insertEntry r.names_nodup h⟩

/-- The registry of stored attributes, which are inserted in order. -/
def ofStored (r : Registry P) : List (UInt32 × Attribute P) → Except Failure (Registry P)
  | [] => .ok r
  | (id, a) :: rest => do
    let r ← (r.insert id a).mapError fun
      | .attributeExists name => .invalidPublicParameters (.nameListedTwice name)
      | other => other
    r.ofStored rest

end Registry

end AttributeEncryption
