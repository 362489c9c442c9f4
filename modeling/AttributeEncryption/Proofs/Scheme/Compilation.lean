import AttributeEncryption.Proofs.Matrix.Tables
import AttributeEncryption.Proofs.Scheme.Policies
import AttributeEncryption.Proofs.Scheme.Registrations

/-!
# When policies compile

Resolving a policy looks its names up from left to right (`Formula.leaves_traverse`), so it fails
for the first name that is not registered. The rows of the resolved tree are then added from left
to right, and the first id that was added before is refused (`Formula.compile_of_repetition`). A
tree without repeated ids always compiles.

Names are told apart by their ids, so a repeated id belongs to a repeated name, and the tree of ids
holds for the ids of some names exactly if the policy holds for these names. Both are said of the
table of names in every state that registrations lead to (`compile_outcome`).
-/

namespace AttributeEncryption

/-! ## Repetitions -/

/-- The first item that occurs before. -/
def FirstRepetition {α : Type} (items : List α) (a : α) : Prop :=
  ∃ before after, items = before ++ a :: after ∧ before.Nodup ∧ a ∈ before

theorem exists_firstRepetition {α : Type} {items : List α} (h : ¬ items.Nodup) :
    ∃ a, FirstRepetition items a := by
  induction items using List.reverseRecOn with
  | nil => exact absurd List.nodup_nil h
  | append_singleton items a ih =>
    by_cases hitems : items.Nodup
    · refine ⟨a, items, [], rfl, hitems, ?_⟩
      by_contra hnew
      refine h (List.nodup_append.mpr ⟨hitems, List.nodup_singleton a, ?_⟩)
      rintro b hb c hc rfl
      exact hnew (List.mem_singleton.mp hc ▸ hb)
    · obtain ⟨b, before, after, rfl, hbefore, hb⟩ := ih hitems
      exact ⟨b, before, after ++ [a], by simp, hbefore, hb⟩

theorem FirstRepetition.mem {α : Type} {items : List α} {a : α} (h : FirstRepetition items a) :
    a ∈ items := by
  obtain ⟨before, after, rfl, -, ha⟩ := h
  exact List.mem_append_left _ ha

/-- The first repetition stays the first one if different items get different names. -/
theorem FirstRepetition.map {α β : Type} {g : α → β} {items : List α} {a : α}
    (h : FirstRepetition items a) (hg : ∀ b ∈ items, ∀ c ∈ items, g b = g c → b = c) :
    FirstRepetition (items.map g) (g a) := by
  obtain ⟨before, after, rfl, hbefore, ha⟩ := h
  refine ⟨before.map g, after.map g, by rw [List.map_append, List.map_cons], ?_,
    List.mem_map_of_mem ha⟩
  refine hbefore.map_on fun b hb c hc => ?_
  exact hg b (List.mem_append_left _ hb) c (List.mem_append_left _ hc)

/-! ## Resolving -/

namespace Formula

/-- The leaves of a traversed formula are the results for its leaves, from left to right. -/
theorem leaves_traverse {α β ε : Type} (k : α → Except ε β) (f : Formula α) :
    (f.traverse k).map leaves = f.leaves.mapM k := by
  induction f with
  | leaf a =>
    rw [traverse, leaves, List.mapM_cons, List.mapM_nil]
    cases k a <;> rfl
  | and l r hl hr =>
    rw [traverse, leaves, List.mapM_append, ← hl, ← hr]
    cases l.traverse k <;> cases r.traverse k <;> rfl
  | or l r hl hr =>
    rw [traverse, leaves, List.mapM_append, ← hl, ← hr]
    cases l.traverse k <;> cases r.traverse k <;> rfl

variable {idOf : String → Option UInt32} {policy : Policy}

theorem resolve_eq (idOf : String → Option UInt32) (policy : Policy) :
    policy.resolve idOf = policy.traverse (lookUp idOf Failure.noSuchAttribute) := by
  unfold resolve
  congr 1
  funext name
  unfold lookUp
  cases idOf name <;> rfl

/-- The first name without an id is reported. -/
theorem resolve_of_unknown {name : String} (h : FirstUnknown idOf policy.leaves name) :
    policy.resolve idOf = .error (.noSuchAttribute name) := by
  have hleaves := policy.leaves_traverse (lookUp idOf Failure.noSuchAttribute)
  rw [← resolve_eq, h.mapM_lookUp] at hleaves
  exact map_eq_error_iff.mp hleaves

/-- If every name has an id, they take the places of the names. -/
theorem resolve_of_known (h : ∀ name ∈ policy.leaves, (idOf name).isSome) :
    policy.resolve idOf = .ok (policy.map fun name => (idOf name).getD 0) := by
  refine traverse_eq_ok fun name hname => ?_
  obtain ⟨id, hid⟩ := Option.isSome_iff_exists.mp (h name hname)
  rw [hid, Option.getD_some]

/-- For some names and their ids, a formula over names holds if that over their ids does. -/
theorem holds_map_getD {held : String → Bool} {heldIds : UInt32 → Bool}
    (h : ∀ name ∈ policy.leaves, (idOf name).isSome)
    (hinjective : ∀ name name' id, idOf name = some id → idOf name' = some id → name = name')
    (hheld : ∀ id, heldIds id = true ↔ ∃ name, held name = true ∧ idOf name = some id) :
    (policy.map fun name => (idOf name).getD 0).holds heldIds = policy.holds held := by
  rw [holds_map]
  refine holds_congr fun name hname => ?_
  obtain ⟨id, hid⟩ := Option.isSome_iff_exists.mp (h name hname)
  rw [Bool.eq_iff_iff, hid, Option.getD_some, hheld]
  constructor
  · rintro ⟨name', hname', hid'⟩
    exact hinjective name' name id hid' hid ▸ hname'
  · intro hheld
    exact ⟨name, hheld, hid⟩

end Formula

/-! ## Compiling -/

/-- Rows are added to what the rows before them left. -/
theorem MatrixBuilder.addAll_append (rows rows' : List (UInt32 × List Int32)) :
    ∀ b : MatrixBuilder, b.addAll (rows ++ rows') = b.addAll rows >>= fun b => b.addAll rows' := by
  induction rows with
  | nil => exact fun b => rfl
  | cons first rows ih =>
    intro b
    rw [List.cons_append, addAll, addAll, bind_assoc]
    exact bind_congr fun b' => ih b'

namespace Formula

/-- The first id that was added before is refused. -/
theorem compile_of_repetition {tree : AccessTree} {id : UInt32}
    (h : FirstRepetition tree.leaves id) : tree.compile = .error (.duplicateAttribute id) := by
  obtain ⟨before, after, hleaves, hbefore, hid⟩ := h
  have hlabels := tree.labels_label [1] 1
  rw [hleaves] at hlabels
  obtain ⟨rows, rest, hrows, rfl, hrest⟩ := List.map_eq_append_iff.mp hlabels
  obtain ⟨⟨id', row⟩, rows', rfl, rfl, -⟩ := List.map_eq_cons_iff.mp hrest
  obtain ⟨b, hb, -, hlabels⟩ := @MatrixBuilder.addAll_eq_ok rows .empty hbefore
  have hrefused : b.add id' row = .error (.duplicateAttribute id') :=
    dif_pos (hlabels ▸ hid)
  unfold compile
  rw [hrows, MatrixBuilder.addAll_append, hb, ok_bind, MatrixBuilder.addAll, hrefused]
  rfl

end Formula

/-! ## Policies over the table of names -/

/-- The matrix of a policy, made with the tables only. -/
def Tables.compile {P : Type} (t : Tables P) (policy : Policy) : Except Failure MatrixTables := do
  let tree ← policy.resolve t.byName
  MatrixTables.compile tree

variable {S : Suite}

theorem Tables.compile_tables (pp : PublicParameters S) (policy : Policy) :
    pp.registry.tables.compile policy = (pp.compile policy).map ShareMatrix.tables := by
  have hids : pp.registry.tables.byName = pp.registry.idOf? := rfl
  unfold Tables.compile PublicParameters.compile
  rw [hids]
  cases policy.resolve pp.registry.idOf? with
  | error cause => rfl
  | ok tree => exact MatrixTables.compile_eq tree

namespace PublicParameters

variable {pp : PublicParameters S} {policy : Policy}

theorem leaves_map_idOf (h : ∀ name ∈ policy.leaves, pp.registry.Has name) :
    (policy.map pp.idOf).leaves.map some = policy.leaves.map pp.registry.idOf? := by
  rw [Formula.leaves_map, List.map_map]
  refine List.map_congr_left fun name hname => ?_
  exact (idOf?_eq_some_idOf (h name hname)).symm

/-- The first name that is not registered is reported. -/
theorem compile_of_unknown {name : String}
    (h : FirstUnknown pp.registry.idOf? policy.leaves name) :
    pp.compile policy = .error (.noSuchAttribute name) := by
  unfold compile
  rw [Formula.resolve_of_unknown h]
  rfl

/-- Among registered names the first one that is repeated is reported by its id. -/
theorem compile_of_repetition {name : String}
    (h : ∀ name ∈ policy.leaves, (pp.registry.idOf? name).isSome)
    (hname : FirstRepetition policy.leaves name) :
    pp.compile policy = .error (.duplicateAttribute (pp.idOf name)) := by
  have hinjective : ∀ b ∈ policy.leaves, ∀ c ∈ policy.leaves, pp.idOf b = pp.idOf c → b = c :=
    fun b hb c hc =>
      idOf_injOn (Registry.isSome_idOf?_iff.mp (h b hb)) (Registry.isSome_idOf?_iff.mp (h c hc))
  unfold compile
  rw [Formula.resolve_of_known h, ok_bind]
  refine Formula.compile_of_repetition ?_
  rw [Formula.leaves_map]
  exact hname.map hinjective

end PublicParameters

/-- Compiling a policy fails for its first name that is not registered, or else for the id of the
first name that occurs before, and for nothing else. The tree of the ids has the meaning of the
policy. This is so wherever the parameters come from and whatever is registered, and the tables of
the registry alone give the same. -/
theorem compile_outcome {origin : Origin} {pp₀ : PublicParameters S}
    (h : origin.parameters S = .ok pp₀) (calls : List (String × Randomness)) :
    ∃ t₀ results pp t, origin.tables S = .ok t₀ ∧
      runCalls PublicParameters.call pp₀ calls = (results, pp) ∧
      runCalls (Tables.call S.g1) t₀ calls = (results, t) ∧
      ∀ policy, t.compile policy = (pp.compile policy).map ShareMatrix.tables ∧
        ((∃ name, FirstUnknown t.byName policy.leaves name ∧
            pp.compile policy = .error (.noSuchAttribute name)) ∨
          ∃ tree, policy.resolve t.byName = .ok tree ∧
            tree.leaves.map some = policy.leaves.map t.byName ∧
            (∀ (held : String → Bool) (heldIds : UInt32 → Bool),
              (∀ id, heldIds id = true ↔ ∃ name, held name = true ∧ t.byName name = some id) →
                tree.holds heldIds = policy.holds held) ∧
            ((∃ name id, FirstRepetition policy.leaves name ∧ t.byName name = some id ∧
                pp.compile policy = .error (.duplicateAttribute id)) ∨
              policy.leaves.Nodup ∧ ∃ m, pp.compile policy = .ok m ∧ m.labels = tree.leaves)) := by
  obtain ⟨ht₀, hrun⟩ := Origin.runCalls_tables h calls
  rcases hcalls : runCalls PublicParameters.call pp₀ calls with ⟨results, pp⟩
  rw [hcalls] at hrun
  refine ⟨_, results, pp, _, ht₀, rfl, hrun, fun policy => ⟨Tables.compile_tables pp policy, ?_⟩⟩
  change (∃ name, FirstUnknown pp.registry.idOf? policy.leaves name ∧ _) ∨ _
  rcases forall_isSome_or_firstUnknown pp.registry.idOf? policy.leaves with hknown | ⟨name, hname⟩
  · have hregistered : ∀ name ∈ policy.leaves, pp.registry.Has name := fun name hname =>
      Registry.isSome_idOf?_iff.mp (hknown name hname)
    refine Or.inr ⟨policy.map pp.idOf, Formula.resolve_of_known hknown,
      PublicParameters.leaves_map_idOf hregistered, fun held heldIds => ?_, ?_⟩
    · exact Formula.holds_map_getD hknown fun _ _ _ => Registry.idOf?_injective
    · by_cases hnodup : policy.leaves.Nodup
      · obtain ⟨m, hm, hcompiled⟩ := PublicParameters.exists_compile hregistered hnodup
        exact Or.inr ⟨hnodup, m, hm, hcompiled.labels_eq⟩
      · obtain ⟨name, hname⟩ := exists_firstRepetition hnodup
        exact Or.inl ⟨name, pp.idOf name, hname,
          PublicParameters.idOf?_eq_some_idOf (hregistered name hname.mem),
          PublicParameters.compile_of_repetition hknown hname⟩
  · exact Or.inl ⟨name, hname, PublicParameters.compile_of_unknown hname⟩

/-- A name that is not registered is reported before names that are repeated, and a repeated name
by the id that it was registered under. -/
theorem unknown_reported_before_repetition :
    ∃ (pp₀ pp : PublicParameters exponents) (results : List (Except Failure UInt32))
      (t₀ t : Tables Scalar),
      (Origin.stored sparseParameters).parameters exponents = .ok pp₀ ∧
      (Origin.stored sparseParameters).tables exponents = .ok t₀ ∧
      runCalls PublicParameters.call pp₀ [("c", .ofWords #[1])] = (results, pp) ∧
      runCalls (Tables.call exponents.g1) t₀ [("c", .ofWords #[1])] = (results, t) ∧
      t.compile (.and (.leaf "a") (.or (.leaf "a") (.leaf "x"))) = .error (.noSuchAttribute "x") ∧
      t.compile (.and (.leaf "c") (.or (.leaf "a") (.leaf "c"))) =
        .error (.duplicateAttribute 0xFFFFFFFF) := by
  let rowsOf (pp₀ : PublicParameters exponents) (policy : Policy) :=
    ((runCalls PublicParameters.call pp₀ [("c", .ofWords #[1])]).2.compile policy).map
      ShareMatrix.rows
  have hrows : ((Origin.stored sparseParameters).parameters exponents).map (fun pp₀ =>
      (rowsOf pp₀ (.and (.leaf "a") (.or (.leaf "a") (.leaf "x"))),
        rowsOf pp₀ (.and (.leaf "c") (.or (.leaf "a") (.leaf "c"))))) =
      .ok (.error (.noSuchAttribute "x"), .error (.duplicateAttribute 0xFFFFFFFF)) := by
    decide +kernel
  obtain ⟨pp₀, hpp₀, heq⟩ := exists_of_map_eq_ok hrows
  obtain ⟨t₀, results, pp, t, ht₀, hrun, htables, hcompile⟩ :=
    compile_outcome hpp₀ [("c", .ofWords #[1])]
  have hpp : (runCalls PublicParameters.call pp₀ [("c", .ofWords #[1])]).2 = pp :=
    congrArg Prod.snd hrun
  have hrefused {policy : Policy} {cause : Failure} (h : rowsOf pp₀ policy = .error cause) :
      t.compile policy = .error cause := by
    rw [(hcompile policy).1, ← hpp, map_eq_error_iff.mp h]
    rfl
  obtain ⟨hunknown, hrepeated⟩ := Prod.mk.inj heq
  exact ⟨pp₀, pp, results, t₀, t, hpp₀, ht₀, hrun, htables, hrefused hunknown, hrefused hrepeated⟩

end AttributeEncryption
