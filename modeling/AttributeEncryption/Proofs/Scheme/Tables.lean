import AttributeEncryption.Proofs.Runs
import AttributeEncryption.Proofs.Scheme.Attributes
import Mathlib.Algebra.Ring.Nat
import Mathlib.Logic.Function.Basic

/-!
# Registries as three tables

A registry keeps its attributes in one map, and whatever is asked of it is found there. Kept
apart, the answers are three tables (`Tables`) : the attributes by id, the ids by name, and the
next id. An insertion has to update all of them and may fail between its checks.

The tables of a registry are in step (`Registry.tables_inStep`), and updates of the tables do
what insertions do, one after the other too (`Registry.on_insert`, `Registry.on_restore`).
-/

namespace AttributeEncryption

/-! ## Tables -/

/-- The tables of a registry. An attribute by id is kept with its id. -/
@[ext]
structure Tables (P : Type) where
  /-- The attributes by id. -/
  byId : UInt32 → Option (UInt32 × Attribute P)
  /-- The ids by name. -/
  byName : String → Option UInt32
  /-- The id for the next attribute. -/
  nextId : UInt32

/-- One more than an id, but never more than the greatest 32-bit number. -/
def successor (id : UInt32) : UInt32 :=
  if id = 0xFFFFFFFF then id else id + 1

theorem toNat_successor (id : UInt32) :
    (successor id).toNat = min (id.toNat + 1) (2 ^ 32 - 1) := by
  have hlt := id.toNat_lt
  unfold successor
  split_ifs with h
  · rw [h]
    decide
  · have hne : id.toNat ≠ 2 ^ 32 - 1 := fun heq => h (UInt32.toNat_inj.mp heq)
    rw [UInt32.toNat_add, UInt32.toNat_one]
    omega

namespace Tables

variable {P : Type}

/-- No attributes. -/
def empty : Tables P where
  byId _ := none
  byName _ := none
  nextId := 0

/-- An update of tables, which may fail on the way. -/
abbrev Update (P : Type) := ExceptT Failure (StateM (Tables P))

/-- The result of an update, and the tables that it leaves. -/
def Update.on {α : Type} (update : Update P α) (t : Tables P) : Except Failure α × Tables P :=
  StateT.run (ExceptT.run update) t

/-- Enters an attribute in all tables, one after the other, unless its name or its id is
taken. -/
def insert (id : UInt32) (a : Attribute P) : Update P UInt32 := do
  let t ← get
  if (t.byName a.name).isSome then throw (.attributeExists a.name)
  if (t.byId id).isSome then throw (.invalidPublicParameters (.idAssignedTwice id))
  modify fun t => { t with nextId := max t.nextId (successor id) }
  modify fun t => { t with byName := Function.update t.byName a.name (some id) }
  modify fun t => { t with byId := Function.update t.byId id (some (id, a)) }
  return id

/-- Enters a name with a random point under the next id. -/
def register (g : PointGroup P) (name : String) (ρ : Randomness) : Update P UInt32 := do
  if name.isEmpty then throw (.invalidAttribute .emptyName)
  let t ← get
  insert t.nextId ⟨name, g.random.value ρ⟩

/-- The result of registering a name, and the tables that it leaves. -/
def call (g : PointGroup P) (t : Tables P) (c : String × Randomness) :
    Except Failure UInt32 × Tables P :=
  (register g c.1 c.2).on t

theorem call_eq (g : PointGroup P) (t : Tables P) (name : String) (ρ : Randomness) :
    call g t (name, ρ) =
      if name.isEmpty then (.error (.invalidAttribute .emptyName), t)
      else (insert t.nextId ⟨name, g.random.value ρ⟩).on t := by
  unfold call register
  split_ifs <;> rfl

/-- A name that is stored twice is a fault of what was stored. -/
def restoreFailure : Failure → Failure
  | .attributeExists name => .invalidPublicParameters (.nameListedTwice name)
  | other => other

/-- Enters stored attributes in order. -/
def restore : List (UInt32 × Attribute P) → Update P Unit
  | [] => return ()
  | (id, a) :: rest => do
    let _ ← tryCatch (insert id a) fun cause => throw (restoreFailure cause)
    restore rest

theorem on_get_bind {α : Type} (f : Tables P → Update P α) (t : Tables P) :
    Update.on (get >>= f) t = (f t).on t :=
  rfl

/-- What an insertion does : it is refused for a taken name or id before it updates anything. -/
theorem on_insert_eq (id : UInt32) (a : Attribute P) (t : Tables P) :
    (insert id a).on t =
      if (t.byName a.name).isSome then (.error (.attributeExists a.name), t)
      else if (t.byId id).isSome then
        (.error (.invalidPublicParameters (.idAssignedTwice id)), t)
      else (.ok id,
        { byId := Function.update t.byId id (some (id, a))
          byName := Function.update t.byName a.name (some id)
          nextId := max t.nextId (successor id) }) := by
  unfold insert
  rw [on_get_bind]
  split_ifs <;> rfl

/-- The first attribute is entered before the rest, or refused. -/
theorem on_restore_cons (id : UInt32) (a : Attribute P) (rest : List (UInt32 × Attribute P))
    (t : Tables P) :
    (restore ((id, a) :: rest)).on t =
      match (insert id a).on t with
      | (.ok _, t') => (restore rest).on t'
      | (.error cause, t') => (.error (restoreFailure cause), t') := by
  rw [restore]
  unfold Update.on
  rw [run_exceptT_bind, ExceptT.run_tryCatch, StateT.run_bind]
  rcases StateT.run (ExceptT.run (insert id a)) t with ⟨_ | _, _⟩ <;> rfl

/-- The id is the greatest one in the tables. -/
def Greatest (t : Tables P) (id : UInt32) : Prop :=
  (t.byId id).isSome ∧ ∀ id', (t.byId id').isSome → id' ≤ id

/-- The tables belong together : by name and by id are inverse to each other, and the next id
is 0 without attributes and else one more than the greatest id, up to the greatest 32-bit
number. -/
structure InStep (t : Tables P) : Prop where
  byName_iff : ∀ name id, t.byName name = some id ↔ ∃ a, t.byId id = some (id, a) ∧ a.name = name
  id_eq : ∀ id e, t.byId id = some e → e.1 = id
  nextId_of_empty : (∀ id, t.byId id = none) → t.nextId = 0
  nextId_of_greatest : ∀ id, t.Greatest id → t.nextId.toNat = min (id.toNat + 1) (2 ^ 32 - 1)

end Tables

/-! ## The tables of a registry -/

namespace Registry

variable {P : Type} {r r' : Registry P} {id : UInt32} {a : Attribute P}

/-- The next id is 0 without attributes, and else follows the greatest id. -/
theorem nextId_cases (r : Registry P) :
    (r.attributes.entries = [] ∧ r.nextId = 0) ∨
      ∃ m b, (m, b) ∈ r.attributes.entries ∧ (∀ e ∈ r.attributes.entries, e.1 ≤ m) ∧
        r.nextId = successor m := by
  cases hlast : r.attributes.entries.getLast? with
  | none =>
    unfold nextId
    rw [hlast]
    exact Or.inl ⟨List.getLast?_eq_none_iff.mp hlast, rfl⟩
  | some last =>
    obtain ⟨before, hentries⟩ := List.getLast?_eq_some_iff.mp hlast
    have hascending := r.attributes.ascending
    rw [hentries] at hascending
    refine Or.inr ⟨last.1, last.2, by rw [hentries]; simp, fun e he => ?_, ?_⟩
    · rw [hentries] at he
      rcases List.mem_append.mp he with hbefore | heq
      · exact UInt32.le_of_lt ((List.pairwise_append.mp hascending).2.2 e hbefore last (by simp))
      · rw [List.mem_singleton.mp heq]
        exact UInt32.le_refl _
    · unfold nextId
      rw [hlast]
      rfl

theorem nextId_eq_successor {m : UInt32} {b : Attribute P} (hm : (m, b) ∈ r.attributes.entries)
    (hle : ∀ e ∈ r.attributes.entries, e.1 ≤ m) : r.nextId = successor m := by
  rcases r.nextId_cases with ⟨hempty, -⟩ | ⟨m', b', hm', hle', hnext⟩
  · rw [hempty] at hm
    cases hm
  · have heq : m' = m := UInt32.le_antisymm (hle _ hm') (hle' _ hm)
    rw [hnext, heq]

/-- An insertion raises the next id if the new id asks for it. -/
theorem nextId_of_insert (h : r.insert id a = .ok r') :
    r'.nextId = max r.nextId (successor id) := by
  rw [← UInt32.toNat_inj, UInt32.toNat_max]
  rcases r.nextId_cases with ⟨hempty, hzero⟩ | ⟨m, b, hm, hle, hnext⟩
  · have hgreatest : ∀ e ∈ r'.attributes.entries, e.1 ≤ id := by
      intro e he
      rcases mem_of_insert h he with rfl | he
      · exact UInt32.le_refl _
      · rw [hempty] at he
        cases he
    rw [nextId_eq_successor (mem_insert_self h) hgreatest, hzero]
    simp
  · rw [hnext, toNat_successor, toNat_successor]
    rcases UInt32.le_total m id with hmid | hidm
    · have hgreatest : ∀ e ∈ r'.attributes.entries, e.1 ≤ id := by
        intro e he
        rcases mem_of_insert h he with rfl | he
        · exact UInt32.le_refl _
        · exact UInt32.le_trans (hle e he) hmid
      have := UInt32.le_iff_toNat_le.mp hmid
      rw [nextId_eq_successor (mem_insert_self h) hgreatest, toNat_successor]
      omega
    · have hgreatest : ∀ e ∈ r'.attributes.entries, e.1 ≤ m := by
        intro e he
        rcases mem_of_insert h he with rfl | he
        · exact hidm
        · exact hle e he
      have := UInt32.le_iff_toNat_le.mp hidm
      rw [nextId_eq_successor (mem_insert_of_mem h hm) hgreatest, toNat_successor]
      omega

/-- What the registry answers, as three tables. -/
def tables (r : Registry P) : Tables P where
  byId id := (r.attribute? id).map fun a => (id, a)
  byName := r.idOf?
  nextId := r.nextId

theorem tables_empty : (Registry.empty : Registry P).tables = .empty :=
  rfl

theorem isSome_byName_iff {name : String} :
    (r.tables.byName name).isSome ↔ name ∈ namesOf r.attributes.entries := by
  rw [Option.isSome_iff_exists, namesOf, List.mem_map]
  simp only [tables, idOf?_eq_some_iff, Prod.exists]

theorem isSome_byId (r : Registry P) (id : UInt32) :
    (r.tables.byId id).isSome = r.attributes.contains id :=
  Option.isSome_map

/-- The tables after an insertion. -/
theorem tables_of_insert (h : r.insert id a = .ok r') :
    r'.tables =
      { byId := Function.update r.tables.byId id (some (id, a))
        byName := Function.update r.tables.byName a.name (some id)
        nextId := max r.tables.nextId (successor id) } := by
  obtain ⟨-, -, hattributes⟩ := attributes_of_insert h
  refine Tables.ext (funext fun i => ?_) (funext fun name => ?_) (nextId_of_insert h)
  · simp only [tables, attribute?, hattributes, IdMap.get?_insert, Function.update_apply]
    split_ifs with hi
    · rw [hi]
      rfl
    · rfl
  · simp only [tables, idOf?_of_insert h, Function.update_apply]

/-- An insertion into the tables does what the insertion into the registry does, and changes
nothing if it fails. -/
theorem on_insert (r : Registry P) (id : UInt32) (a : Attribute P) :
    (Tables.insert id a).on r.tables =
      match r.insert id a with
      | .ok r' => (.ok id, r'.tables)
      | .error cause => (.error cause, r.tables) := by
  rw [Tables.on_insert_eq, isSome_byId]
  cases hinsert : r.insert id a with
  | error cause =>
    unfold insert at hinsert
    split_ifs at hinsert with hname hid
    · cases hinsert
      rw [if_pos (isSome_byName_iff.mpr hname)]
    · cases hinsert
      rw [if_neg (fun h => hname (isSome_byName_iff.mp h)), if_pos hid]
  | ok r' =>
    obtain ⟨hname, hid, -⟩ := attributes_of_insert hinsert
    rw [if_neg (fun h => hname (isSome_byName_iff.mp h)), hid, if_neg Bool.false_ne_true,
      ← tables_of_insert hinsert]

/-- Restoring tables succeeds and fails like restoring a registry, and leaves its tables. -/
theorem on_restore (r : Registry P) (stored : List (UInt32 × Attribute P)) :
    ((Tables.restore stored).on r.tables).1.map
        (fun _ => ((Tables.restore stored).on r.tables).2) =
      (r.ofStored stored).map tables := by
  induction stored generalizing r with
  | nil => rfl
  | cons entry stored ih =>
    obtain ⟨id, a⟩ := entry
    have hcons := Tables.on_restore_cons id a stored r.tables
    rw [on_insert] at hcons
    rw [ofStored, hcons]
    cases r.insert id a with
    | error cause => cases cause <;> rfl
    | ok r₁ => exact ih r₁

theorem byId_eq_some_iff {e : UInt32 × Attribute P} :
    r.tables.byId id = some e ↔ e ∈ r.attributes.entries ∧ e.1 = id := by
  simp only [tables, Option.map_eq_some_iff, attribute?_eq_some_iff]
  constructor
  · rintro ⟨a, ha, rfl⟩
    exact ⟨ha, rfl⟩
  · rintro ⟨he, rfl⟩
    exact ⟨e.2, he, rfl⟩

theorem isSome_byId_iff : (r.tables.byId id).isSome ↔ ∃ a, (id, a) ∈ r.attributes.entries := by
  rw [isSome_byId]
  exact IdMap.contains_iff

/-- The greatest id of the tables is that of the last attribute. -/
theorem nextId_of_greatest (h : r.tables.Greatest id) : r.nextId = successor id := by
  obtain ⟨hid, hle⟩ := h
  obtain ⟨a, ha⟩ := isSome_byId_iff.mp hid
  exact nextId_eq_successor ha fun e he => hle e.1 (isSome_byId_iff.mpr ⟨e.2, he⟩)

/-- The tables of a registry are in step. -/
theorem tables_inStep (r : Registry P) : r.tables.InStep where
  byName_iff name id := by
    simp only [byId_eq_some_iff, and_true]
    exact idOf?_eq_some_iff
  id_eq id e he := (byId_eq_some_iff.mp he).2
  nextId_of_empty h := by
    rcases r.nextId_cases with ⟨-, hzero⟩ | ⟨m, b, hm, -, -⟩
    · exact hzero
    · have hnone := h m
      rw [byId_eq_some_iff.mpr ⟨hm, rfl⟩] at hnone
      cases hnone
  nextId_of_greatest id h := by
    rw [tables, nextId_of_greatest h, toNat_successor]

/-- The next id is taken exactly if it is the greatest 32-bit number and that is taken. -/
theorem isSome_byId_nextId (r : Registry P) :
    (r.tables.byId r.nextId).isSome = (r.tables.byId 0xFFFFFFFF).isSome := by
  rcases r.nextId_cases with ⟨hempty, -⟩ | ⟨m, b, -, hle, hnext⟩
  · rw [isSome_byId, isSome_byId, IdMap.contains, IdMap.get?, IdMap.contains, IdMap.get?, hempty]
    rfl
  · -- beyond the greatest id nothing is taken
    have hbeyond (id : UInt32) (hlt : m.toNat < id.toNat) : (r.tables.byId id).isSome = false := by
      rw [Bool.eq_false_iff, ne_eq, isSome_byId_iff]
      rintro ⟨a, ha⟩
      exact absurd (UInt32.le_iff_toNat_le.mp (hle _ ha)) (Nat.not_le_of_lt hlt)
    have hm := m.toNat_lt
    by_cases hgreatest : m.toNat = 2 ^ 32 - 1
    · obtain rfl : m = 0xFFFFFFFF := UInt32.toNat_inj.mp hgreatest
      rw [hnext]
      rfl
    · have hsuccessor := toNat_successor m
      have hlast : (0xFFFFFFFF : UInt32).toNat = 2 ^ 32 - 1 := rfl
      rw [hnext, hbeyond _ (by omega), hbeyond _ (by omega)]

end Registry

end AttributeEncryption
