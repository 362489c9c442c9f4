import AttributeEncryption.Scheme.PrivateKey
import Mathlib.Data.List.Nodup

/-!
# Attributes by id and by name

Look-ups in maps and registries find exactly their entries (`IdMap.get?_eq_some_iff`,
`Registry.named?_eq_some_iff`), so ids and names of registered attributes determine each
other. An insertion into a registry adds one attribute and keeps the others
(`Registry.mem_of_insert`, `Registry.mem_insert_of_mem`). A key made for some attributes has a
component for each of them and for no others (`contains_componentsFor`).
-/

namespace AttributeEncryption

/-! ## Maps -/

namespace IdMap

variable {α : Type}

theorem nodup_ids (m : IdMap α) : m.ids.Nodup := by
  rw [ids, List.Nodup, List.pairwise_map]
  exact m.ascending.imp fun h => UInt32.ne_of_lt h

/-- A map finds its entries. -/
theorem get?_eq_some_iff {m : IdMap α} {id : UInt32} {a : α} :
    m.get? id = some a ↔ (id, a) ∈ m.entries := by
  unfold get?
  refine ⟨fun h => ?_, fun h => ?_⟩
  · obtain ⟨e, he, rfl⟩ := Option.map_eq_some_iff.mp h
    have hid : e.1 = id := by simpa using List.find?_some he
    rw [← hid]
    exact List.mem_of_find?_eq_some he
  · obtain ⟨e, he⟩ : ∃ e, m.entries.find? (·.1 == id) = some e := by
      rw [← Option.isSome_iff_exists, List.find?_isSome]
      exact ⟨_, h, by simp⟩
    have hid : e.1 = id := by simpa using List.find?_some he
    obtain rfl : e = (id, a) :=
      List.inj_on_of_nodup_map m.nodup_ids (List.mem_of_find?_eq_some he) h hid
    rw [he]
    rfl

theorem contains_iff {m : IdMap α} {id : UInt32} :
    m.contains id = true ↔ ∃ a, (id, a) ∈ m.entries := by
  simp only [contains, Option.isSome_iff_exists, get?_eq_some_iff]

theorem ne_of_contains_eq_false {m : IdMap α} {id : UInt32} (h : m.contains id = false) :
    ∀ e ∈ m.entries, e.1 ≠ id := by
  rintro ⟨id', a⟩ he rfl
  have hcontains := contains_iff.mpr ⟨a, he⟩
  rw [h] at hcontains
  cases hcontains

theorem mem_insertEntry_self (id : UInt32) (a : α) (entries : List (UInt32 × α)) :
    (id, a) ∈ insertEntry id a entries := by
  induction entries with
  | nil => simp [insertEntry]
  | cons e rest ih =>
    rw [insertEntry]
    split_ifs
    · simp
    · simp
    · simp [ih]

theorem mem_insertEntry_of_ne {id : UInt32} {a : α} {e : UInt32 × α}
    {entries : List (UInt32 × α)} (h : e ∈ entries) (hne : e.1 ≠ id) :
    e ∈ insertEntry id a entries := by
  induction entries with
  | nil => cases h
  | cons first rest ih =>
    rw [insertEntry]
    split_ifs with hlt heq
    · exact List.mem_cons_of_mem _ h
    · rcases List.mem_cons.mp h with rfl | h
      · exact absurd heq.symm hne
      · exact List.mem_cons_of_mem _ h
    · rcases List.mem_cons.mp h with rfl | h
      · exact List.mem_cons_self
      · exact List.mem_cons_of_mem _ (ih h)

theorem get?_insert (m : IdMap α) (id id' : UInt32) (a : α) :
    (m.insert id a).get? id' = if id' = id then some a else m.get? id' := by
  split_ifs with hid
  · rw [hid]
    exact get?_eq_some_iff.mpr (mem_insertEntry_self id a m.entries)
  · ext b
    rw [get?_eq_some_iff, get?_eq_some_iff]
    refine ⟨fun h => ?_, fun h => mem_insertEntry_of_ne h hid⟩
    rcases mem_insertEntry h with heq | h
    · exact absurd (Prod.mk.inj heq).1 hid
    · exact h

/-- A new id adds one entry. -/
theorem perm_insertEntry {id : UInt32} {a : α} :
    ∀ {entries : List (UInt32 × α)}, (∀ e ∈ entries, e.1 ≠ id) →
      (insertEntry id a entries).Perm ((id, a) :: entries)
  | [], _ => .refl _
  | e :: entries, h => by
    obtain ⟨he, h⟩ := List.forall_mem_cons.mp h
    rw [insertEntry]
    split_ifs with hlt heq
    · exact .refl _
    · exact absurd heq.symm he
    · exact ((perm_insertEntry h).cons e).trans (.swap _ _ _)

end IdMap

/-! ## Registries -/

namespace Registry

variable {P : Type} {r r' : Registry P} {id : UInt32} {a : Attribute P}

theorem attribute?_eq_some_iff :
    r.attribute? id = some a ↔ (id, a) ∈ r.attributes.entries :=
  IdMap.get?_eq_some_iff

/-- A registry finds its attributes by name. -/
theorem named?_eq_some_iff {name : String} :
    r.named? name = some (id, a) ↔ (id, a) ∈ r.attributes.entries ∧ a.name = name := by
  unfold named?
  refine ⟨fun h => ⟨List.mem_of_find?_eq_some h, by simpa using List.find?_some h⟩, ?_⟩
  rintro ⟨hmem, hname⟩
  obtain ⟨e, he⟩ : ∃ e, r.attributes.entries.find? (·.2.name == name) = some e := by
    rw [← Option.isSome_iff_exists, List.find?_isSome]
    exact ⟨_, hmem, by simp [hname]⟩
  have hename : e.2.name = name := by simpa using List.find?_some he
  obtain rfl : e = (id, a) := List.inj_on_of_nodup_map r.names_nodup
    (List.mem_of_find?_eq_some he) hmem (hename.trans hname.symm)
  exact he

theorem idOf?_eq (name : String) : r.idOf? name = (r.named? name).map Prod.fst :=
  rfl

theorem idOf?_eq_some_iff {name : String} :
    r.idOf? name = some id ↔ ∃ a, (id, a) ∈ r.attributes.entries ∧ a.name = name := by
  simp only [idOf?_eq, Option.map_eq_some_iff, Prod.exists, exists_and_right, exists_eq_right,
    named?_eq_some_iff]

/-- The id of a name leads to the attribute of that name. -/
theorem exists_of_idOf? {name : String} (h : r.idOf? name = some id) :
    ∃ a, r.attribute? id = some a ∧ r.named? name = some (id, a) := by
  obtain ⟨a, ha, hname⟩ := idOf?_eq_some_iff.mp h
  exact ⟨a, attribute?_eq_some_iff.mpr ha, named?_eq_some_iff.mpr ⟨ha, hname⟩⟩

/-- The name belongs to a registered attribute. -/
def Has (r : Registry P) (name : String) : Prop :=
  ∃ id a, r.named? name = some (id, a)

theorem has_iff {name : String} : r.Has name ↔ name ∈ namesOf r.attributes.entries := by
  simp only [Has, named?_eq_some_iff, namesOf, List.mem_map, Prod.exists]

theorem isSome_named?_iff {name : String} : (r.named? name).isSome ↔ r.Has name := by
  rw [Option.isSome_iff_exists, Prod.exists]
  rfl

theorem isSome_idOf?_iff {name : String} : (r.idOf? name).isSome ↔ r.Has name := by
  rw [idOf?_eq, Option.isSome_map, isSome_named?_iff]

/-- Different names have different ids. -/
theorem idOf?_injective {name name' : String} (h : r.idOf? name = some id)
    (h' : r.idOf? name' = some id) : name = name' := by
  obtain ⟨a, ha, rfl⟩ := idOf?_eq_some_iff.mp h
  obtain ⟨a', ha', rfl⟩ := idOf?_eq_some_iff.mp h'
  have := List.inj_on_of_nodup_map r.attributes.nodup_ids ha ha' rfl
  exact congrArg (fun e => e.2.name) this

/-! ## Insertions -/

/-- What a successful insertion needs and gives. -/
theorem attributes_of_insert (h : r.insert id a = .ok r') :
    a.name ∉ namesOf r.attributes.entries ∧ r.attributes.contains id = false ∧
      r'.attributes = r.attributes.insert id a := by
  unfold insert at h
  split_ifs at h with hname hid
  cases h
  exact ⟨hname, by simpa using hid, rfl⟩

/-- Whatever is registered after an insertion was registered before or is the new
attribute. -/
theorem mem_of_insert (h : r.insert id a = .ok r') {e : UInt32 × Attribute P}
    (he : e ∈ r'.attributes.entries) : e = (id, a) ∨ e ∈ r.attributes.entries := by
  obtain ⟨-, -, hattributes⟩ := attributes_of_insert h
  rw [hattributes] at he
  exact IdMap.mem_insertEntry he

theorem mem_insert_self (h : r.insert id a = .ok r') : (id, a) ∈ r'.attributes.entries := by
  obtain ⟨-, -, hattributes⟩ := attributes_of_insert h
  rw [hattributes]
  exact IdMap.mem_insertEntry_self id a _

/-- Whatever was registered before an insertion stays registered. -/
theorem mem_insert_of_mem (h : r.insert id a = .ok r') {e : UInt32 × Attribute P}
    (he : e ∈ r.attributes.entries) : e ∈ r'.attributes.entries := by
  obtain ⟨-, hid, hattributes⟩ := attributes_of_insert h
  rw [hattributes]
  exact IdMap.mem_insertEntry_of_ne he (IdMap.ne_of_contains_eq_false hid e he)

theorem idOf?_of_insert (h : r.insert id a = .ok r') (name : String) :
    r'.idOf? name = if name = a.name then some id else r.idOf? name := by
  split_ifs with hname
  · rw [idOf?_eq_some_iff, hname]
    exact ⟨a, mem_insert_self h, rfl⟩
  · ext i
    rw [idOf?_eq_some_iff, idOf?_eq_some_iff]
    constructor
    · rintro ⟨b, hb, rfl⟩
      rcases mem_of_insert h hb with heq | hb
      · obtain ⟨rfl, rfl⟩ := Prod.mk.inj heq
        exact absurd rfl hname
      · exact ⟨b, hb, rfl⟩
    · rintro ⟨b, hb, rfl⟩
      exact ⟨b, mem_insert_of_mem h hb, rfl⟩

end Registry

/-! ## Components of keys -/

variable {S : Suite}

theorem get?_foldl_insert {α β : Type} {f : α → β} {id : UInt32} {b : β} :
    ∀ {items : List (UInt32 × α)} {m : IdMap β},
      (items.foldl (fun m (id, a) => m.insert id (f a)) m).get? id = some b →
        (∃ a, (id, a) ∈ items ∧ b = f a) ∨ m.get? id = some b
  | [], m, h => Or.inr h
  | (id', a) :: items, m, h => by
    rcases @get?_foldl_insert α β f id b items (m.insert id' (f a)) h with ⟨a', ha', hb⟩ | h
    · exact Or.inl ⟨a', List.mem_cons_of_mem _ ha', hb⟩
    · rw [IdMap.get?_eq_some_iff] at h
      rcases IdMap.mem_insertEntry h with heq | h
      · obtain ⟨rfl, rfl⟩ := Prod.mk.inj heq
        exact Or.inl ⟨a, List.mem_cons_self, rfl⟩
      · exact Or.inr (IdMap.get?_eq_some_iff.mpr h)

theorem contains_foldl_insert {α β : Type} {f : α → β} {id : UInt32} :
    ∀ {items : List (UInt32 × α)} {m : IdMap β},
      (∃ a, (id, a) ∈ items) ∨ m.contains id = true →
        (items.foldl (fun m (id, a) => m.insert id (f a)) m).contains id = true
  | [], m, h => by simpa using h
  | (id', a') :: items, m, h => by
    refine @contains_foldl_insert α β f id items (m.insert id' (f a')) ?_
    rcases h with ⟨a, ha⟩ | h
    · rcases List.mem_cons.mp ha with heq | ha
      · obtain ⟨rfl, rfl⟩ := Prod.mk.inj heq
        exact Or.inr (IdMap.contains_iff.mpr ⟨_, IdMap.mem_insertEntry_self _ _ _⟩)
      · exact Or.inl ⟨a, ha⟩
    · refine Or.inr (IdMap.contains_iff.mpr ?_)
      obtain ⟨b, hb⟩ := IdMap.contains_iff.mp h
      by_cases hid : id = id'
      · subst hid
        exact ⟨_, IdMap.mem_insertEntry_self _ _ _⟩
      · exact ⟨b, IdMap.mem_insertEntry_of_ne hb hid⟩

namespace PublicParameters

/-- A component is the multiple of the point of an attribute that the key was made for. -/
theorem exists_of_get?_componentsFor {attributes : List (UInt32 × Attribute S.G1)} {t : Scalar}
    {id : UInt32} {component : S.G1} (h : (componentsFor attributes t).get? id = some component) :
    ∃ a, (id, a) ∈ attributes ∧ component = S.g1.multiple a.point t := by
  rcases get?_foldl_insert (f := fun a : Attribute S.G1 => S.g1.multiple a.point t) h with h | h
  · exact h
  · cases h

/-- The key has components for the attributes it was made for. -/
theorem contains_componentsFor {attributes : List (UInt32 × Attribute S.G1)} {t : Scalar}
    {id : UInt32} :
    (componentsFor attributes t).contains id = true ↔ ∃ a, (id, a) ∈ attributes := by
  refine ⟨fun h => ?_, fun h => ?_⟩
  · obtain ⟨component, hcomponent⟩ := Option.isSome_iff_exists.mp h
    obtain ⟨a, ha, -⟩ := exists_of_get?_componentsFor hcomponent
    exact ⟨a, ha⟩
  · exact contains_foldl_insert (f := fun a : Attribute S.G1 => S.g1.multiple a.point t) (Or.inl h)

end PublicParameters

end AttributeEncryption
