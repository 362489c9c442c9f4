import AttributeEncryption.Proofs.Scheme.Policies
import AttributeEncryption.Proofs.Scheme.Registrations
import AttributeEncryption.Proofs.Wire.Entries

/-!
# What is issued

A key is made attribute by attribute, and an attribute that has its component already is skipped
(`firstComponents`). In the end the key has one component for each of its ids, which is computed
from the attribute and the drawn scalar alone (`KeyFor`), and this determines it (`KeyFor.unique`).
So only the set of the attributes matters, not how often and in which order they are listed, nor
whether they are listed by name or by id.

Nothing is drawn before the names are looked up and the master key is checked, and after them
nothing fails (`PublicParameters.run_issue`). Both are collected in `issuing_outcome`.
-/

namespace AttributeEncryption

/-! ## Maps -/

namespace IdMap

variable {α β : Type}

/-- Maps in which the same is found are the same. -/
theorem eq_of_get? {m m' : IdMap α} (h : ∀ id, m.get? id = m'.get? id) : m = m' := by
  have : Std.Irrefl fun e e' : UInt32 × α => e.1 < e'.1 := ⟨fun e => UInt32.lt_irrefl e.1⟩
  have : Std.Antisymm fun e e' : UInt32 × α => e.1 < e'.1 :=
    ⟨fun e e' hlt hgt => absurd hgt (UInt32.lt_asymm hlt)⟩
  refine eq_of_entries (List.Pairwise.eq_of_mem_iff m.ascending m'.ascending fun (id, a) => ?_)
  rw [← get?_eq_some_iff, ← get?_eq_some_iff, h]

/-- The map with a value at an id, unless there is one. -/
def insertNew (m : IdMap α) (id : UInt32) (a : α) : IdMap α :=
  if m.contains id then m else m.insert id a

theorem get?_insertNew (m : IdMap α) (id id' : UInt32) (a : α) :
    (m.insertNew id a).get? id' = (m.get? id').or (if id' = id then some a else none) := by
  unfold insertNew contains
  split_ifs with hid heq heq
  · rw [heq, Option.or_of_isSome hid]
  · rw [Option.or_none]
  · rw [get?_insert, if_pos heq, heq, Option.not_isSome_iff_eq_none.mp hid, Option.none_or]
  · rw [get?_insert, if_neg heq, Option.or_none]

/-- Where there was no value, the first one that is entered stays. -/
theorem get?_foldl_insertNew {f : α → β} {id : UInt32} :
    ∀ (items : List (UInt32 × α)) (m : IdMap β),
      (items.foldl (fun m (id, a) => m.insertNew id (f a)) m).get? id =
        (m.get? id).or ((items.lookup id).map f)
  | [], m => by rw [List.foldl_nil, List.lookup_nil, Option.map_none, Option.or_none]
  | (id', a) :: items, m => by
    rw [List.foldl_cons, get?_foldl_insertNew items, get?_insertNew, Option.or_assoc,
      List.lookup_cons]
    by_cases hid : id = id'
    · simp [hid]
    · rw [if_neg hid, Option.none_or, beq_eq_false_iff_ne.mpr hid]

end IdMap

/-- The computation fails on the random words `ρ` and draws none of them. -/
def Trial.Refuses {α : Type} (x : Trial α) (ρ : Randomness) (cause : Failure) : Prop :=
  StateT.run (ExceptT.run x) ρ = (.error cause, ρ)

/-! ## Components -/

variable {S : Suite} {pp : PublicParameters S} {msk : MasterKey S} {t : Scalar}
  {sk sk' : PrivateKey S} {attributes attributes' : List (UInt32 × Attribute S.G1)}

/-- The components for the scalar `t` as they are computed : an attribute whose id has one
already is skipped. -/
def firstComponents (attributes : List (UInt32 × Attribute S.G1)) (t : Scalar) : IdMap S.G1 :=
  attributes.foldl (fun m (id, a) => m.insertNew id (S.g1.multiple a.point t)) .empty

theorem get?_firstComponents (attributes : List (UInt32 × Attribute S.G1)) (t : Scalar)
    (id : UInt32) :
    (firstComponents attributes t).get? id =
      (attributes.lookup id).map fun a => S.g1.multiple a.point t := by
  unfold firstComponents
  rw [IdMap.get?_foldl_insertNew (f := fun a : Attribute S.G1 => S.g1.multiple a.point t)]
  rfl

theorem exists_of_get?_firstComponents {id : UInt32} {c : S.G1}
    (h : (firstComponents attributes t).get? id = some c) :
    ∃ a, (id, a) ∈ attributes ∧ c = S.g1.multiple a.point t := by
  rw [get?_firstComponents, Option.map_eq_some_iff] at h
  obtain ⟨a, ha, rfl⟩ := h
  obtain ⟨before, after, rfl, -⟩ := List.lookup_eq_some_iff.mp ha
  exact ⟨a, by simp, rfl⟩

theorem isSome_get?_firstComponents {id : UInt32} {a : Attribute S.G1}
    (h : (id, a) ∈ attributes) : ((firstComponents attributes t).get? id).isSome := by
  rw [get?_firstComponents, Option.isSome_map, List.lookup_isSome_iff]
  exact ⟨(id, a), h, beq_self_eq_true id⟩

/-- A map with a component for each of some registered attributes. -/
theorem get?_eq_some_iff_of_components {m : IdMap S.G1}
    (hattributes : ∀ b ∈ attributes, b ∈ pp.registry.attributes.entries)
    (hids : ∀ id a, (id, a) ∈ attributes → (m.get? id).isSome)
    (hvalue : ∀ id c, m.get? id = some c → ∃ a, (id, a) ∈ attributes ∧
      c = S.g1.multiple a.point t) (id : UInt32) (c : S.G1) :
    m.get? id = some c ↔ (∃ a, (id, a) ∈ attributes) ∧
      ∃ a, pp.registry.attribute? id = some a ∧ c = S.g1.multiple a.point t := by
  have hregistered {a : Attribute S.G1} (ha : (id, a) ∈ attributes) :
      pp.registry.attribute? id = some a := Registry.attribute?_eq_some_iff.mpr (hattributes _ ha)
  constructor
  · intro hc
    obtain ⟨a, ha, hac⟩ := hvalue id c hc
    exact ⟨⟨a, ha⟩, a, hregistered ha, hac⟩
  · rintro ⟨⟨a, ha⟩, a', ha', rfl⟩
    obtain ⟨c, hc⟩ := Option.isSome_iff_exists.mp (hids id a ha)
    obtain ⟨b, hb, rfl⟩ := hvalue id c hc
    rw [hc, Option.some.inj ((hregistered hb).symm.trans ha')]

/-! ## Keys for sets of ids -/

/-- The key for the scalar `t` and the attributes with the given ids. -/
structure KeyFor (pp : PublicParameters S) (msk : MasterKey S) (t : Scalar)
    (ids : UInt32 → Prop) (sk : PrivateKey S) : Prop where
  /-- `K` is the master key times `g₁^{a t}`. -/
  k_eq : sk.k = S.g1.add msk.point (S.g1.multiple pp.g1a t)
  /-- `L` is `g₂^t`. -/
  l_eq : sk.l = S.g2.multiple pp.g2 t
  /-- The components are the powers of the points of the attributes. -/
  component_iff : ∀ id c, sk.components.get? id = some c ↔
    ids id ∧ ∃ a, pp.registry.attribute? id = some a ∧ c = S.g1.multiple a.point t

namespace KeyFor

variable {ids ids' : UInt32 → Prop}

/-- There is one such key. -/
theorem unique (h : KeyFor pp msk t ids sk) (h' : KeyFor pp msk t ids sk') : sk = sk' := by
  have hcomponents : sk.components = sk'.components := by
    refine IdMap.eq_of_get? fun id => Option.ext fun c => ?_
    rw [h.component_iff, h'.component_iff]
  cases sk
  cases sk'
  congr 1
  · exact h.k_eq.trans h'.k_eq.symm
  · exact h.l_eq.trans h'.l_eq.symm

/-- Keys for the same scalar have the same component where both have one. -/
theorem get?_eq (h : KeyFor pp msk t ids sk) (h' : KeyFor pp msk t ids' sk') {id : UInt32}
    (hid : sk.holds id = true) (hid' : sk'.holds id = true) :
    sk.components.get? id = sk'.components.get? id := by
  obtain ⟨c, hc⟩ := Option.isSome_iff_exists.mp hid
  obtain ⟨c', hc'⟩ := Option.isSome_iff_exists.mp hid'
  obtain ⟨-, a, ha, rfl⟩ := (h.component_iff id c).mp hc
  obtain ⟨-, a', ha', rfl⟩ := (h'.component_iff id c').mp hc'
  rw [hc, hc', Option.some.inj (ha.symm.trans ha')]

end KeyFor

namespace PublicParameters

theorem get?_componentsFor (hattributes : ∀ b ∈ attributes, b ∈ pp.registry.attributes.entries)
    (id : UInt32) (c : S.G1) :
    (componentsFor attributes t).get? id = some c ↔ (∃ a, (id, a) ∈ attributes) ∧
      ∃ a, pp.registry.attribute? id = some a ∧ c = S.g1.multiple a.point t :=
  get?_eq_some_iff_of_components hattributes
    (fun _ a ha => contains_componentsFor.mpr ⟨a, ha⟩)
    (fun _ _ => exists_of_get?_componentsFor) id c

/-- The key that is issued has the components of its attributes. -/
theorem keyFor_issueWith (hattributes : ∀ b ∈ attributes, b ∈ pp.registry.attributes.entries)
    (msk : MasterKey S) (t : Scalar) :
    KeyFor pp msk t (fun id => ∃ a, (id, a) ∈ attributes) (pp.issueWith msk attributes t) where
  k_eq := rfl
  l_eq := rfl
  component_iff := get?_componentsFor hattributes

/-- Skipping attributes or computing their components again makes no difference. -/
theorem firstComponents_eq (hattributes : ∀ b ∈ attributes, b ∈ pp.registry.attributes.entries)
    (t : Scalar) : firstComponents attributes t = componentsFor attributes t := by
  refine IdMap.eq_of_get? fun id => Option.ext fun c => ?_
  have hfirst := get?_eq_some_iff_of_components hattributes
    (fun _ _ => isSome_get?_firstComponents (t := t))
    (fun _ _ => exists_of_get?_firstComponents) id c
  rw [hfirst, get?_componentsFor hattributes]

/-! ## Runs -/

/-- How issuing runs : after the checks, which draw nothing, it cannot fail. -/
theorem run_issue (pp : PublicParameters S) (msk : MasterKey S)
    (attributes : List (UInt32 × Attribute S.G1)) (ρ : Randomness) :
    StateT.run (ExceptT.run (pp.issue msk attributes)) ρ =
      if attributes.isEmpty then (.error (.invalidAttribute .emptySet), ρ)
      else match pp.checkMasterKey msk with
        | .error cause => (.error cause, ρ)
        | .ok () => (.ok (pp.issueWith msk attributes (Randomness.scalar.value ρ)),
            (StateT.run Randomness.scalar ρ).2) := by
  unfold issue
  split_ifs
  · rfl
  · cases pp.checkMasterKey msk with
    | error cause => rfl
    | ok _ =>
      obtain ⟨t, ρ', ht⟩ := Randomness.exists_run Randomness.scalar ρ
      rw [Draw.value_eq ht, ht]
      exact Trial.Gives.bind (.lift rfl ρ) (.bind (.draw ht) (.pure _ _))

/-- Only the set of the attributes matters. -/
theorem issue_congr (hattributes : ∀ b ∈ attributes, b ∈ pp.registry.attributes.entries)
    (h : ∀ b, b ∈ attributes' ↔ b ∈ attributes) (msk : MasterKey S) :
    pp.issue msk attributes' = pp.issue msk attributes := by
  have hattributes' : ∀ b ∈ attributes', b ∈ pp.registry.attributes.entries := fun b hb =>
    hattributes b ((h b).mp hb)
  have hempty : attributes'.isEmpty = attributes.isEmpty := by
    rw [Bool.eq_iff_iff, List.isEmpty_iff, List.isEmpty_iff, List.eq_nil_iff_forall_not_mem,
      List.eq_nil_iff_forall_not_mem]
    simp only [h]
  have hkey (t : Scalar) : pp.issueWith msk attributes' t = pp.issueWith msk attributes t := by
    have hids : (fun id => ∃ a, (id, a) ∈ attributes') = fun id => ∃ a, (id, a) ∈ attributes := by
      simp only [h]
    exact (hids ▸ keyFor_issueWith hattributes' msk t).unique (keyFor_issueWith hattributes msk t)
  have hcomponents : componentsFor attributes' = componentsFor attributes :=
    funext fun t => congrArg PrivateKey.components (hkey t)
  unfold issue
  rw [hempty, hcomponents]

theorem lookUpNames_eq (pp : PublicParameters S) (names : List String) :
    pp.lookUpNames names = names.mapM (lookUp pp.registry.named? fun name =>
      Failure.invalidAttribute (.unregisteredName name)) := by
  unfold lookUpNames
  congr 1
  funext name
  unfold lookUp
  cases pp.registry.named? name <;> rfl

theorem lookUpIds_eq (pp : PublicParameters S) (ids : List UInt32) :
    pp.lookUpIds ids = ids.mapM (lookUp (fun id => (pp.registry.attribute? id).map (id, ·))
      fun id => Failure.invalidAttribute (.unregisteredId id)) := by
  unfold lookUpIds
  congr 1
  funext id
  unfold lookUp
  simp only
  cases pp.registry.attribute? id <;> rfl

/-- Names are looked up before anything else. -/
theorem refuses_of_unknown {names : List String} {name : String}
    (h : FirstUnknown pp.registry.named? names name) (msk : MasterKey S) (ρ : Randomness) :
    (pp.issueForNames msk names).Refuses ρ (.invalidAttribute (.unregisteredName name)) := by
  unfold issueForNames
  rw [lookUpNames_eq, h.mapM_lookUp]
  rfl

/-- All names are registered, or there is a first one that is not. -/
theorem forall_has_or_firstUnknown (pp : PublicParameters S) (names : List String) :
    (∀ name ∈ names, pp.registry.Has name) ∨
      ∃ name, FirstUnknown pp.registry.named? names name := by
  refine (forall_isSome_or_firstUnknown pp.registry.named? names).imp_left fun h name hname => ?_
  exact Registry.isSome_named?_iff.mp (h name hname)

/-- A key for registered names is one for their attributes. -/
theorem issueForNames_eq {names : List String} (h : ∀ name ∈ names, pp.registry.Has name)
    (msk : MasterKey S) :
    pp.issueForNames msk names = pp.issue msk (names.filterMap pp.registry.named?) := by
  unfold issueForNames
  rw [lookUpNames_eq,
    mapM_lookUp_eq_ok fun name hname => Registry.isSome_named?_iff.mpr (h name hname)]
  rfl

/-- A key for registered ids is one for their attributes. -/
theorem issueForIds_eq {ids : List UInt32} (h : ∀ id ∈ ids, pp.knows id = true)
    (msk : MasterKey S) :
    pp.issueForIds msk ids =
      pp.issue msk (ids.filterMap fun id => (pp.registry.attribute? id).map (id, ·)) := by
  unfold issueForIds
  rw [lookUpIds_eq, mapM_lookUp_eq_ok fun id hid => Option.isSome_map.trans (h id hid)]
  rfl

/-- The id is that of one of the names. -/
def IdsOf (pp : PublicParameters S) (names : List String) (id : UInt32) : Prop :=
  ∃ name ∈ names, pp.registry.idOf? name = some id

theorem mem_entries_of_named {names : List String} :
    ∀ b ∈ names.filterMap pp.registry.named?, b ∈ pp.registry.attributes.entries := by
  intro b hb
  obtain ⟨name, -, hname⟩ := List.mem_filterMap.mp hb
  exact (Registry.named?_eq_some_iff.mp hname).1

theorem exists_mem_named_iff {names : List String} {id : UInt32} :
    (∃ a, (id, a) ∈ names.filterMap pp.registry.named?) ↔ pp.IdsOf names id := by
  simp only [IdsOf, Registry.idOf?_eq, List.mem_filterMap, Option.map_eq_some_iff, Prod.exists,
    exists_and_right, exists_eq_right]
  constructor
  · rintro ⟨a, name, hname, hnamed⟩
    exact ⟨name, hname, a, hnamed⟩
  · rintro ⟨name, hname, a, hnamed⟩
    exact ⟨a, name, hname, hnamed⟩

/-- An issued key is the one for the ids of the names and the drawn scalar. -/
theorem keyFor_of_gives {names : List String} {ρ ρ' : Randomness}
    (h : (pp.issueForNames msk names).Gives ρ sk ρ') :
    KeyFor pp msk (Randomness.scalar.value ρ) (pp.IdsOf names) sk := by
  rcases pp.forall_has_or_firstUnknown names with hregistered | ⟨name, hname⟩
  · rw [issueForNames_eq hregistered] at h
    have hids : (fun id => ∃ a, (id, a) ∈ names.filterMap pp.registry.named?) = pp.IdsOf names :=
      funext fun id => propext exists_mem_named_iff
    rw [issue_eq h.result_eq, ← hids]
    exact keyFor_issueWith mem_entries_of_named msk _
  · cases (refuses_of_unknown hname msk ρ).symm.trans h

/-- A key for names has a component for their ids and for no others. -/
theorem mem_ids_iff_of_keyFor {names : List String} (h : KeyFor pp msk t (pp.IdsOf names) sk)
    {id : UInt32} : id ∈ sk.components.ids ↔ pp.IdsOf names id := by
  constructor
  · intro hid
    obtain ⟨⟨id, c⟩, hentry, rfl⟩ := List.mem_map.mp hid
    exact ((h.component_iff id c).mp (IdMap.get?_eq_some_iff.mpr hentry)).1
  · rintro ⟨name, hname, hnamed⟩
    obtain ⟨a, ha, -⟩ := Registry.exists_of_idOf? hnamed
    have hcomponent := (h.component_iff id _).mpr ⟨⟨name, hname, hnamed⟩, a, ha, rfl⟩
    exact List.mem_map.mpr ⟨_, IdMap.get?_eq_some_iff.mp hcomponent, rfl⟩

/-- The ids of a key for names are their ids, each of them once. -/
theorem perm_ids_of_keyFor {names : List String}
    (hregistered : ∀ name ∈ names, pp.registry.Has name)
    (h : KeyFor pp msk t (pp.IdsOf names) sk) :
    (sk.components.ids.map some).Perm (names.dedup.map pp.registry.idOf?) := by
  refine (List.perm_ext_iff_of_nodup ?_ ?_).mpr fun id? => ?_
  · exact (IdMap.nodup_ids _).map (Option.some_injective _)
  · refine (List.nodup_dedup names).map_on fun name hname name' _ heq => ?_
    have hid := idOf?_eq_some_idOf (hregistered name (List.mem_dedup.mp hname))
    exact Registry.idOf?_injective hid (heq ▸ hid)
  · rw [List.mem_map, List.mem_map]
    constructor
    · rintro ⟨id, hid, rfl⟩
      obtain ⟨name, hname, hnamed⟩ := (mem_ids_iff_of_keyFor h).mp hid
      exact ⟨name, List.mem_dedup.mpr hname, hnamed⟩
    · rintro ⟨name, hname, rfl⟩
      have hmem := List.mem_dedup.mp hname
      have hid := idOf?_eq_some_idOf (hregistered name hmem)
      exact ⟨pp.idOf name, (mem_ids_iff_of_keyFor h).mpr ⟨name, hmem, hid⟩, hid.symm⟩

theorem checkMasterKey_cases (pp : PublicParameters S) (msk : MasterKey S) :
    pp.checkMasterKey msk = .error (.invalidMasterKey .foreign) ∨
      pp.checkMasterKey msk = .ok () := by
  unfold checkMasterKey
  split_ifs
  · exact Or.inr rfl
  · exact Or.inl rfl

/-- The ids of names lead to the attributes of the names. -/
theorem mem_of_ids_iff {names : List String} {ids : List UInt32}
    (hids : ∀ id, id ∈ ids ↔ pp.IdsOf names id) (b : UInt32 × Attribute S.G1) :
    (b ∈ ids.filterMap fun id => (pp.registry.attribute? id).map (id, ·)) ↔
      b ∈ names.filterMap pp.registry.named? := by
  rw [List.mem_filterMap, List.mem_filterMap]
  constructor
  · rintro ⟨id, hid, hb⟩
    obtain ⟨a, ha, rfl⟩ := Option.map_eq_some_iff.mp hb
    obtain ⟨name, hname, hnamed⟩ := (hids id).mp hid
    obtain ⟨a', ha', hnamed⟩ := Registry.exists_of_idOf? hnamed
    exact ⟨name, hname, Option.some.inj (ha.symm.trans ha') ▸ hnamed⟩
  · rintro ⟨name, hname, hb⟩
    obtain ⟨id, a⟩ := b
    have hid : pp.registry.idOf? name = some id := by rw [Registry.idOf?_eq, hb, Option.map_some]
    have ha := Registry.attribute?_eq_some_iff.mpr (Registry.named?_eq_some_iff.mp hb).1
    exact ⟨id, (hids id).mpr ⟨name, hname, hid⟩, by rw [ha, Option.map_some]⟩

variable {names : List String}

/-- For registered names issuing fails for an empty list, or else for a foreign master key. -/
theorem issueForNames_cases (hregistered : ∀ name ∈ names, pp.registry.Has name)
    (msk : MasterKey S) :
    names = [] ∧ (∀ ρ, (pp.issueForNames msk names).Refuses ρ (.invalidAttribute .emptySet)) ∨
      names ≠ [] ∧ pp.checkMasterKey msk = .error (.invalidMasterKey .foreign) ∧
        (∀ ρ, (pp.issueForNames msk names).Refuses ρ (.invalidMasterKey .foreign)) ∨
      names ≠ [] ∧ pp.checkMasterKey msk = .ok () ∧
        ∀ ρ, (pp.issueForNames msk names).Gives ρ
          (pp.issueWith msk (names.filterMap pp.registry.named?) (Randomness.scalar.value ρ))
          (StateT.run Randomness.scalar ρ).2 := by
  have hrun (ρ : Randomness) := pp.run_issue msk (names.filterMap pp.registry.named?) ρ
  rw [issueForNames_eq hregistered]
  rcases names with _ | ⟨name, names⟩
  · exact Or.inl ⟨rfl, fun ρ => hrun ρ⟩
  · have hne : ((name :: names).filterMap pp.registry.named?).isEmpty = false := by
      obtain ⟨id, a, hnamed⟩ := hregistered name List.mem_cons_self
      rw [List.filterMap_cons_some hnamed, List.isEmpty_cons]
    simp only [hne, Bool.false_eq_true, if_false] at hrun
    rcases pp.checkMasterKey_cases msk with hcheck | hcheck
    · rw [hcheck] at hrun
      exact Or.inr (Or.inl ⟨List.cons_ne_nil _ _, hcheck, fun ρ => hrun ρ⟩)
    · rw [hcheck] at hrun
      exact Or.inr (Or.inr ⟨List.cons_ne_nil _ _, hcheck, fun ρ => hrun ρ⟩)

/-- The same names in another order or number give the same. -/
theorem issueForNames_congr (hregistered : ∀ name ∈ names, pp.registry.Has name)
    {names' : List String} (h : ∀ name, name ∈ names' ↔ name ∈ names) (msk : MasterKey S) :
    pp.issueForNames msk names' = pp.issueForNames msk names := by
  rw [issueForNames_eq hregistered,
    issueForNames_eq fun name hname => hregistered name ((h name).mp hname)]
  refine issue_congr mem_entries_of_named (fun b => ?_) msk
  simp only [List.mem_filterMap, h]

/-- The ids of registered names give the same as the names. -/
theorem issueForIds_eq_issueForNames (hregistered : ∀ name ∈ names, pp.registry.Has name)
    {ids : List UInt32} (hids : ∀ id, id ∈ ids ↔ pp.IdsOf names id) (msk : MasterKey S) :
    pp.issueForIds msk ids = pp.issueForNames msk names := by
  have hknows : ∀ id ∈ ids, pp.knows id = true := by
    intro id hid
    obtain ⟨name, -, hnamed⟩ := (hids id).mp hid
    obtain ⟨a, ha, -⟩ := Registry.exists_of_idOf? hnamed
    rw [knows, ha, Option.isSome_some]
  rw [issueForNames_eq hregistered, issueForIds_eq hknows]
  exact issue_congr mem_entries_of_named (mem_of_ids_iff hids) msk

end PublicParameters

/-- Issuing a key for names fails for the first one that is not registered, for an empty list, or
else for a master key that does not belong to the parameters, and then nothing is drawn. Otherwise
it gives the key for the ids of the names and the drawn scalar. The same names in another order or
number, or their ids, give the same, and keys for two lists agree on what they have in common. -/
theorem issuing_outcome (pp : PublicParameters S) (msk : MasterKey S) (names : List String) :
    ((∃ name, FirstUnknown pp.registry.named? names name ∧
        ∀ ρ, (pp.issueForNames msk names).Refuses ρ
          (.invalidAttribute (.unregisteredName name))) ∨
      (∀ name ∈ names, pp.registry.Has name) ∧
        (names = [] ∧
            (∀ ρ, (pp.issueForNames msk names).Refuses ρ (.invalidAttribute .emptySet)) ∨
          names ≠ [] ∧ pp.checkMasterKey msk = .error (.invalidMasterKey .foreign) ∧
            (∀ ρ, (pp.issueForNames msk names).Refuses ρ (.invalidMasterKey .foreign)) ∨
          names ≠ [] ∧ pp.checkMasterKey msk = .ok () ∧
            ∀ ρ, ∃ sk, (pp.issueForNames msk names).Gives ρ sk (StateT.run Randomness.scalar ρ).2 ∧
              KeyFor pp msk (Randomness.scalar.value ρ) (pp.IdsOf names) sk ∧
              (sk.components.ids.map some).Perm (names.dedup.map pp.registry.idOf?) ∧
              sk.components = firstComponents (names.filterMap pp.registry.named?)
                (Randomness.scalar.value ρ)) ∧
        (∀ names', (∀ name, name ∈ names' ↔ name ∈ names) →
          pp.issueForNames msk names' = pp.issueForNames msk names) ∧
        ∀ ids, (∀ id, id ∈ ids ↔ pp.IdsOf names id) →
          pp.issueForIds msk ids = pp.issueForNames msk names) ∧
      ∀ names' ρ ρ₁ ρ₂ sk sk', (pp.issueForNames msk names).Gives ρ sk ρ₁ →
        (pp.issueForNames msk names').Gives ρ sk' ρ₂ →
        sk.k = sk'.k ∧ sk.l = sk'.l ∧ ∀ id, sk.holds id = true → sk'.holds id = true →
          sk.components.get? id = sk'.components.get? id := by
  refine ⟨?_, fun names' ρ ρ₁ ρ₂ sk sk' h h' => ?_⟩
  · rcases pp.forall_has_or_firstUnknown names with hregistered | ⟨name, hname⟩
    · refine Or.inr ⟨hregistered, ?_,
        fun names' h => PublicParameters.issueForNames_congr hregistered h msk,
        fun ids hids => PublicParameters.issueForIds_eq_issueForNames hregistered hids msk⟩
      refine (PublicParameters.issueForNames_cases hregistered msk).imp_right (.imp_right ?_)
      rintro ⟨hne, hcheck, hgives⟩
      refine ⟨hne, hcheck, fun ρ => ⟨_, hgives ρ, ?_⟩⟩
      have hkey := PublicParameters.keyFor_of_gives (hgives ρ)
      exact ⟨hkey, PublicParameters.perm_ids_of_keyFor hregistered hkey,
        (PublicParameters.firstComponents_eq PublicParameters.mem_entries_of_named _).symm⟩
    · exact Or.inl ⟨name, hname, fun ρ => PublicParameters.refuses_of_unknown hname msk ρ⟩
  · have hkey := PublicParameters.keyFor_of_gives h
    have hkey' := PublicParameters.keyFor_of_gives h'
    exact ⟨hkey.k_eq.trans hkey'.k_eq.symm, hkey.l_eq.trans hkey'.l_eq.symm,
      fun id => hkey.get?_eq hkey'⟩

/-- The master key of the sparse parameters. -/
def sparseMasterKey : MasterKey exponents :=
  ⟨(3 : Scalar)⟩

/-- The key for two names is the same if one of them is named twice, if they change places, and if
they are given by their ids. -/
theorem issues_same_key :
    ∃ (pp : PublicParameters exponents) (sk : PrivateKey exponents),
      (Origin.stored sparseParameters).parameters exponents = .ok pp ∧
      pp.checkMasterKey sparseMasterKey = .ok () ∧
      (pp.issueForNames sparseMasterKey ["a", "b", "a"]).Gives (.ofWords #[1]) sk
        (StateT.run Randomness.scalar (.ofWords #[1])).2 ∧
      KeyFor pp sparseMasterKey (Randomness.scalar.value (.ofWords #[1]))
        (pp.IdsOf ["a", "b", "a"]) sk ∧
      (∀ name, name ∈ ["b", "a"] ↔ name ∈ ["a", "b", "a"]) ∧
      pp.issueForNames sparseMasterKey ["b", "a"] =
        pp.issueForNames sparseMasterKey ["a", "b", "a"] ∧
      (∀ id, id ∈ [0xFFFFFFFE, 7] ↔ pp.IdsOf ["a", "b", "a"] id) ∧
      pp.issueForIds sparseMasterKey [0xFFFFFFFE, 7] =
        pp.issueForNames sparseMasterKey ["a", "b", "a"] := by
  have hfacts : ((Origin.stored sparseParameters).parameters exponents).map (fun pp =>
      (pp.registry.idOf? "a", pp.registry.idOf? "b", pp.checkMasterKey sparseMasterKey)) =
      .ok (some 7, some 0xFFFFFFFE, .ok ()) := by
    decide +kernel
  obtain ⟨pp, hpp, heq⟩ := exists_of_map_eq_ok hfacts
  obtain ⟨ha, hb, hcheck⟩ : pp.registry.idOf? "a" = some 7 ∧
      pp.registry.idOf? "b" = some 0xFFFFFFFE ∧ pp.checkMasterKey sparseMasterKey = .ok () := by
    simpa only [Prod.mk.injEq] using heq
  have hids : ∀ id, id ∈ [0xFFFFFFFE, 7] ↔ pp.IdsOf ["a", "b", "a"] id := by
    intro id
    unfold PublicParameters.IdsOf
    simp [ha, hb, or_comm, eq_comm]
  have hsame : ∀ name, name ∈ ["b", "a"] ↔ name ∈ ["a", "b", "a"] := by simp
  rcases (issuing_outcome pp sparseMasterKey ["a", "b", "a"]).1 with
    ⟨name, ⟨before, after, hsplit, -, hname⟩, -⟩ | ⟨-, hrun, hnames, hforIds⟩
  · have hunknown : pp.registry.idOf? name = none := by
      rw [Registry.idOf?_eq, hname, Option.map_none]
    have hmem : name ∈ ["a", "b", "a"] := by
      rw [hsplit]
      exact List.mem_append_right _ List.mem_cons_self
    simp only [List.mem_cons, List.not_mem_nil, or_false] at hmem
    rcases hmem with rfl | rfl | rfl
    · cases hunknown.symm.trans ha
    · cases hunknown.symm.trans hb
    · cases hunknown.symm.trans ha
  · rcases hrun with ⟨hnil, -⟩ | ⟨-, hforeign, -⟩ | ⟨-, -, hgives⟩
    · cases hnil
    · cases hforeign.symm.trans hcheck
    · obtain ⟨sk, hsk, hkey, -⟩ := hgives (.ofWords #[1])
      exact ⟨pp, sk, hpp, hcheck, hsk, hkey, hsame, hnames _ hsame, hids, hforIds _ hids⟩

end AttributeEncryption
