import AttributeEncryption.Proofs.Scheme.Headers
import AttributeEncryption.Proofs.SpanProgram.Labelling

/-!
# Policies over registered names

Resolving a policy replaces its names by their ids (`Formula.map`), which keeps distinct
names distinct. So a policy over distinct registered names compiles
(`PublicParameters.exists_compile`), and a key for registered names satisfies the tree of ids
exactly if the names satisfy the policy (`PublicParameters.holds_map_idOf`).
-/

namespace AttributeEncryption

/-! ## Formulas with other leaves -/

namespace Formula

variable {α β : Type}

/-- The formula with other leaves. -/
def map (g : α → β) : Formula α → Formula β
  | leaf a => leaf (g a)
  | and l r => and (l.map g) (r.map g)
  | or l r => or (l.map g) (r.map g)

@[simp] theorem leaves_map (g : α → β) (f : Formula α) : (f.map g).leaves = f.leaves.map g := by
  induction f with
  | leaf a => rfl
  | and l r hl hr => simp only [map, leaves, hl, hr, List.map_append]
  | or l r hl hr => simp only [map, leaves, hl, hr, List.map_append]

/-- A formula with other leaves holds if the formula does for the leaves that they replace. -/
theorem holds_map (g : α → β) (held : β → Bool) (f : Formula α) :
    (f.map g).holds held = f.holds fun a => held (g a) := by
  induction f with
  | leaf a => rfl
  | and l r hl hr => simp only [map, holds, hl, hr]
  | or l r hl hr => simp only [map, holds, hl, hr]

/-- Only the leaves of a formula matter for it. -/
theorem holds_congr {held held' : α → Bool} {f : Formula α}
    (h : ∀ a ∈ f.leaves, held a = held' a) : f.holds held = f.holds held' := by
  induction f with
  | leaf a => exact h a (by simp [leaves])
  | and l r hl hr =>
    obtain ⟨hleft, hright⟩ := List.forall_mem_append.mp h
    rw [holds, holds, hl hleft, hr hright]
  | or l r hl hr =>
    obtain ⟨hleft, hright⟩ := List.forall_mem_append.mp h
    rw [holds, holds, hl hleft, hr hright]

/-- A formula that holds has a leaf that is held. -/
theorem exists_leaf_of_holds {held : α → Bool} {f : Formula α} (h : f.holds held = true) :
    ∃ a ∈ f.leaves, held a = true := by
  induction f with
  | leaf a => exact ⟨a, by simp [leaves], h⟩
  | and l r hl _ =>
    rw [holds, Bool.and_eq_true] at h
    obtain ⟨a, ha, hheld⟩ := hl h.1
    exact ⟨a, List.mem_append_left _ ha, hheld⟩
  | or l r hl hr =>
    rw [holds, Bool.or_eq_true] at h
    rcases h with h | h
    · obtain ⟨a, ha, hheld⟩ := hl h
      exact ⟨a, List.mem_append_left _ ha, hheld⟩
    · obtain ⟨a, ha, hheld⟩ := hr h
      exact ⟨a, List.mem_append_right _ ha, hheld⟩

/-- If every leaf has a replacement, traversing a formula replaces them all. -/
theorem traverse_eq_ok {ε : Type} {k : α → Except ε β} {g : α → β} {f : Formula α}
    (h : ∀ a ∈ f.leaves, k a = .ok (g a)) : f.traverse k = .ok (f.map g) := by
  induction f with
  | leaf a =>
    rw [traverse, h a (by simp [leaves])]
    rfl
  | and l r hl hr =>
    obtain ⟨hleft, hright⟩ := List.forall_mem_append.mp h
    rw [traverse, hl hleft, hr hright]
    rfl
  | or l r hl hr =>
    obtain ⟨hleft, hright⟩ := List.forall_mem_append.mp h
    rw [traverse, hl hleft, hr hright]
    rfl

end Formula

/-! ## Names and their ids -/

variable {S : Suite}

namespace PublicParameters

variable {pp : PublicParameters S}

/-- The id of a name, 0 if it is not registered. -/
def idOf (pp : PublicParameters S) (name : String) : UInt32 :=
  (pp.registry.idOf? name).getD 0

theorem idOf?_eq_some_idOf {name : String} (h : pp.registry.Has name) :
    pp.registry.idOf? name = some (pp.idOf name) := by
  obtain ⟨id, a, hnamed⟩ := h
  rw [idOf, Registry.idOf?_eq, hnamed]
  rfl

theorem exists_attribute?_idOf {name : String} (h : pp.registry.Has name) :
    ∃ b, pp.registry.attribute? (pp.idOf name) = some b := by
  obtain ⟨b, hb, -⟩ := Registry.exists_of_idOf? (idOf?_eq_some_idOf h)
  exact ⟨b, hb⟩

/-- Registered names are told apart by their ids. -/
theorem idOf_injOn {name name' : String} (h : pp.registry.Has name) (h' : pp.registry.Has name')
    (heq : pp.idOf name = pp.idOf name') : name = name' :=
  Registry.idOf?_injective (idOf?_eq_some_idOf h) (heq ▸ idOf?_eq_some_idOf h')

/-- A policy over distinct registered names compiles to the matrix of the tree over their
ids. -/
theorem exists_compile {policy : Policy}
    (hregistered : ∀ name ∈ policy.leaves, pp.registry.Has name) (hnodup : policy.leaves.Nodup) :
    ∃ m, pp.compile policy = .ok m ∧ (policy.map pp.idOf).Compiled m := by
  have hresolve : policy.resolve pp.registry.idOf? = .ok (policy.map pp.idOf) :=
    Formula.traverse_eq_ok fun name hname => by rw [idOf?_eq_some_idOf (hregistered name hname)]
  have hleaves : (policy.map pp.idOf).leaves.Nodup := by
    rw [Formula.leaves_map]
    exact hnodup.map_on fun name hname name' hname' =>
      idOf_injOn (hregistered name hname) (hregistered name' hname')
  obtain ⟨m, hm⟩ := Formula.exists_compiled hleaves
  refine ⟨m, ?_, hm⟩
  unfold compile
  rw [hresolve]
  exact hm.compile_eq

/-- The labels of the matrix are registered. -/
theorem exists_lookUpIds_of_compiled {policy : Policy} {matrix : ShareMatrix}
    (hregistered : ∀ name ∈ policy.leaves, pp.registry.Has name)
    (hmatrix : (policy.map pp.idOf).Compiled matrix) :
    ∃ attributes, pp.lookUpIds matrix.labels = .ok attributes ∧
      pp.Resolves matrix.labels attributes := by
  refine exists_lookUpIds fun id hid => ?_
  rw [hmatrix.labels_eq, Formula.leaves_map] at hid
  obtain ⟨name, hname, rfl⟩ := List.mem_map.mp hid
  exact exists_attribute?_idOf (hregistered name hname)

/-! ## Keys for names -/

/-- Whether the attributes of a key satisfy a policy. -/
def satisfies (pp : PublicParameters S) (sk : PrivateKey S) (policy : Policy) : Bool :=
  policy.holds fun name => (pp.registry.idOf? name).any sk.holds

/-- For registered names that is whether they satisfy the tree of ids. -/
theorem satisfies_eq {policy : Policy} (hregistered : ∀ name ∈ policy.leaves, pp.registry.Has name)
    (sk : PrivateKey S) : pp.satisfies sk policy = (policy.map pp.idOf).holds sk.holds := by
  rw [Formula.holds_map]
  refine Formula.holds_congr fun name hname => ?_
  rw [idOf?_eq_some_idOf (hregistered name hname)]
  rfl

/-- The attributes are those that are registered under the names. -/
def Names (pp : PublicParameters S) (names : List String)
    (attributes : List (UInt32 × Attribute S.G1)) : Prop :=
  List.Forall₂ (fun name b => pp.registry.named? name = some b) names attributes

/-- Registered names are found. -/
theorem exists_lookUpNames {names : List String} (h : ∀ name ∈ names, pp.registry.Has name) :
    ∃ attributes, pp.lookUpNames names = .ok attributes ∧ pp.Names names attributes := by
  refine exists_mapM_eq_ok fun name hname => ?_
  obtain ⟨id, a, hnamed⟩ := h name hname
  refine ⟨(id, a), ?_, hnamed⟩
  rw [hnamed]

namespace Names

variable {names : List String} {attributes : List (UInt32 × Attribute S.G1)}

theorem mem_entries (h : pp.Names names attributes) :
    ∀ b ∈ attributes, b ∈ pp.registry.attributes.entries := by
  intro b hb
  obtain ⟨i, hi, rfl⟩ := List.getElem_of_mem hb
  exact (Registry.named?_eq_some_iff.mp (List.Forall₂.get h (h.length_eq ▸ hi) hi)).1

/-- The attributes have the id of a registered name exactly if it is one of the names. -/
theorem exists_mem_iff (h : pp.Names names attributes) {name : String}
    (hname : pp.registry.Has name) : (∃ b, (pp.idOf name, b) ∈ attributes) ↔ name ∈ names := by
  have hid := idOf?_eq_some_idOf hname
  refine ⟨fun ⟨b, hb⟩ => ?_, fun hmem => ?_⟩
  · obtain ⟨i, hi, hget⟩ := List.getElem_of_mem hb
    have hi' : i < names.length := h.length_eq ▸ hi
    have hnamed : pp.registry.named? names[i] = some attributes[i] := List.Forall₂.get h hi' hi
    have hid' : pp.registry.idOf? names[i] = some (pp.idOf name) := by
      rw [Registry.idOf?_eq, hnamed, hget]
      rfl
    rw [Registry.idOf?_injective hid hid']
    exact List.getElem_mem hi'
  · obtain ⟨i, hi, rfl⟩ := List.getElem_of_mem hmem
    have hi' : i < attributes.length := h.length_eq ▸ hi
    have hnamed : pp.registry.named? names[i] = some attributes[i] := List.Forall₂.get h hi hi'
    rw [Registry.idOf?_eq, hnamed] at hid
    refine ⟨attributes[i].2, ?_⟩
    rw [← Option.some.inj hid]
    exact List.getElem_mem hi'

end Names

/-- A key for some names satisfies the tree of ids exactly if the names satisfy the policy. -/
theorem holds_map_idOf {policy : Policy} {names : List String}
    {attributes : List (UInt32 × Attribute S.G1)}
    (hregistered : ∀ name ∈ policy.leaves, pp.registry.Has name)
    (hattributes : pp.Names names attributes) (msk : MasterKey S) (t : Scalar) :
    (policy.map pp.idOf).holds (pp.issueWith msk attributes t).holds =
      policy.holds (names.contains ·) := by
  rw [Formula.holds_map]
  refine Formula.holds_congr fun name hname => ?_
  rw [Bool.eq_iff_iff, List.contains_iff_mem, ← hattributes.exists_mem_iff (hregistered name hname)]
  exact contains_componentsFor

/-- The attributes of a key for names satisfy a policy if the names do. -/
theorem satisfies_issueForNames {policy : Policy}
    (hregistered : ∀ name ∈ policy.leaves, pp.registry.Has name) {msk : MasterKey S}
    {names : List String} {ρ : Randomness} {sk : PrivateKey S}
    (hsk : (pp.issueForNames msk names).result ρ = .ok sk) :
    pp.satisfies sk policy = policy.holds (names.contains ·) := by
  obtain ⟨ρ', hgives⟩ := Trial.exists_gives hsk
  obtain ⟨attributes, ρ₁, hlookUp, hissue⟩ := hgives.bind_inv
  have hnames : pp.Names names attributes := by
    refine (forall₂_of_mapM_eq_ok hlookUp.lift_inv).imp fun name b hname => ?_
    split at hname
    · next a hnamed => rwa [Except.ok.inj hname] at hnamed
    · cases hname
  rw [issue_eq hissue.result_eq, satisfies_eq hregistered, holds_map_idOf hregistered hnames]

end PublicParameters

end AttributeEncryption
