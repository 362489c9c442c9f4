import AttributeEncryption.Proofs.Scheme.Parameters
import AttributeEncryption.Proofs.Scheme.Tables
import AttributeEncryption.Proofs.Wire.Frames
import AttributeEncryption.Scheme.Wire

/-!
# Runs of registrations

Parameters come from a setup or from stored bytes (`Origin`), and then names are registered,
some of them in vain. A run adds the attributes that it registers and changes nothing else
(`PublicParameters.entries_runCalls`). Along every such run the tables of the registry are updated
like the parameters (`Tables.call_tables`, `runCalls_view`), so they stay in step. The result of
each registration can be read off them, a failing one changes nothing, and no id is given twice
(`registrations_in_step`).
-/

namespace AttributeEncryption

/-! ## Calls -/

variable {S : Suite} {pp : PublicParameters S}

namespace PublicParameters

/-- The result of registering a name, and the parameters after it : those from before if it
fails. -/
def call (pp : PublicParameters S) (c : String × Randomness) :
    Except Failure UInt32 × PublicParameters S :=
  match (pp.register c.1).result c.2 with
  | .ok (pp', id) => (.ok id, pp')
  | .error cause => (.error cause, pp)

/-- The ids in a list of results. -/
def registeredIds (results : List (Except Failure UInt32)) : List UInt32 :=
  results.filterMap Except.toOption

theorem call_of_error {c : String × Randomness} {cause : Failure}
    (h : (pp.call c).1 = .error cause) : (pp.call c).2 = pp := by
  unfold call at *
  cases hregister : (pp.register c.1).result c.2 with
  | error cause => rfl
  | ok made =>
    rw [hregister] at h
    cases h

/-- What a call does to the registry. -/
theorem call_eq (pp : PublicParameters S) (name : String) (ρ : Randomness) :
    pp.call (name, ρ) =
      if name.isEmpty then (.error (.invalidAttribute .emptyName), pp)
      else match pp.registry.insert pp.registry.nextId ⟨name, S.g1.random.value ρ⟩ with
        | .ok registry => (.ok pp.registry.nextId, { pp with registry })
        | .error cause => (.error cause, pp) := by
  unfold call
  rw [result_register]
  split_ifs
  · rfl
  · cases pp.registry.insert pp.registry.nextId ⟨name, S.g1.random.value ρ⟩ <;> rfl

end PublicParameters

/-- Registering in the tables does what registering does. -/
theorem Tables.call_tables (pp : PublicParameters S) (c : String × Randomness) :
    Tables.call S.g1 pp.registry.tables c = ((pp.call c).1, (pp.call c).2.registry.tables) := by
  obtain ⟨name, ρ⟩ := c
  have hinsert := pp.registry.on_insert pp.registry.nextId ⟨name, S.g1.random.value ρ⟩
  rw [PublicParameters.call_eq]
  unfold Tables.call Tables.register
  split_ifs with hname
  · rfl
  · change (Tables.insert pp.registry.nextId ⟨name, S.g1.random.value ρ⟩).on _ = _
    rw [hinsert]
    cases pp.registry.insert pp.registry.nextId ⟨name, S.g1.random.value ρ⟩ <;> rfl

/-- A call that fails changes nothing, even in tables that are not in step. -/
theorem Tables.call_of_error {P : Type} {g : PointGroup P} {t : Tables P}
    {c : String × Randomness} {cause : Failure} (h : (Tables.call g t c).1 = .error cause) :
    (Tables.call g t c).2 = t := by
  obtain ⟨name, ρ⟩ := c
  rw [Tables.call_eq, Tables.on_insert_eq] at h ⊢
  split_ifs at h ⊢ <;> rfl

namespace PublicParameters

/-- The result of a call can be read off the tables. -/
theorem fst_call_eq (pp : PublicParameters S) (name : String) (ρ : Randomness) :
    (pp.call (name, ρ)).1 =
      if name.isEmpty then .error (.invalidAttribute .emptyName)
      else if (pp.registry.tables.byName name).isSome then .error (.attributeExists name)
      else if (pp.registry.tables.byId 0xFFFFFFFF).isSome then
        .error (.invalidPublicParameters (.idAssignedTwice 0xFFFFFFFF))
      else .ok pp.registry.nextId := by
  have hcall := congrArg Prod.fst (Tables.call_tables pp (name, ρ))
  have hnext : pp.registry.tables.nextId = pp.registry.nextId := rfl
  rw [Tables.call_eq, Tables.on_insert_eq, hnext, pp.registry.isSome_byId_nextId] at hcall
  rw [← hcall]
  split_ifs with _ _ hlast
  · rfl
  · rfl
  · have hgreatest : pp.registry.tables.Greatest 0xFFFFFFFF := by
      refine ⟨hlast, fun id _ => UInt32.le_iff_toNat_le.mpr ?_⟩
      exact Nat.le_of_lt_succ id.toNat_lt
    rw [Registry.nextId_of_greatest hgreatest]
    rfl
  · rfl

/-- A call gives 0 in an empty registry, and else one more than the greatest id. -/
theorem id_of_call {c : String × Randomness} {id : UInt32} (h : (pp.call c).1 = .ok id) :
    ((∀ i, pp.registry.tables.byId i = none) ∧ id = 0) ∨
      ∃ m, pp.registry.tables.Greatest m ∧ id.toNat = m.toNat + 1 := by
  obtain ⟨name, ρ⟩ := c
  rw [fst_call_eq] at h
  split_ifs at h with _ _ hlast
  obtain rfl := Except.ok.inj h
  rcases pp.registry.nextId_cases with ⟨hempty, hzero⟩ | ⟨m, b, hm, hle, hnext⟩
  · refine Or.inl ⟨fun i => ?_, hzero⟩
    rw [← Option.not_isSome_iff_eq_none, Registry.isSome_byId_iff, hempty]
    rintro ⟨a, ha⟩
    cases ha
  · have hsome : (pp.registry.tables.byId m).isSome := Registry.isSome_byId_iff.mpr ⟨b, hm⟩
    refine Or.inr ⟨m, ⟨hsome, fun i hi => ?_⟩, ?_⟩
    · obtain ⟨a, ha⟩ := Registry.isSome_byId_iff.mp hi
      exact hle _ ha
    · have hne : m.toNat ≠ 2 ^ 32 - 1 := by
        intro heq
        obtain rfl : m = 0xFFFFFFFF := UInt32.toNat_inj.mp heq
        exact hlast hsome
      have hlt := m.toNat_lt
      rw [hnext, toNat_successor]
      omega

/-- The attributes that calls with these results registered. -/
def newAttributes (S : Suite) (calls : List (String × Randomness))
    (results : List (Except Failure UInt32)) : List (UInt32 × Attribute S.G1) :=
  (calls.zip results).filterMap fun (c, result) =>
    result.toOption.map fun id => (id, ⟨c.1, S.g1.random.value c.2⟩)

/-- A call adds the attribute that it registers, if any, and changes nothing else. -/
theorem entries_call (pp : PublicParameters S) (c : String × Randomness) :
    (∃ registry, (pp.call c).2 = { pp with registry }) ∧
      (pp.call c).2.registry.attributes.entries.Perm
        (newAttributes S [c] [(pp.call c).1] ++ pp.registry.attributes.entries) := by
  obtain ⟨name, ρ⟩ := c
  rw [call_eq]
  split_ifs with hname
  · exact ⟨⟨_, rfl⟩, .refl _⟩
  · cases hinsert : pp.registry.insert pp.registry.nextId ⟨name, S.g1.random.value ρ⟩ with
    | error cause => exact ⟨⟨_, rfl⟩, .refl _⟩
    | ok registry =>
      obtain ⟨-, hid, hattributes⟩ := Registry.attributes_of_insert hinsert
      refine ⟨⟨registry, rfl⟩, ?_⟩
      simp only [hattributes]
      exact IdMap.perm_insertEntry (IdMap.ne_of_contains_eq_false hid)

/-- The attributes of a run are that of its first call and those of the rest. -/
theorem newAttributes_cons (pp : PublicParameters S) (c : String × Randomness)
    (calls : List (String × Randomness)) :
    newAttributes S (c :: calls) (runCalls call pp (c :: calls)).1 =
      newAttributes S [c] [(pp.call c).1] ++
        newAttributes S calls (runCalls call (pp.call c).2 calls).1 := by
  unfold newAttributes
  rw [← List.filterMap_append]
  rfl

/-- A run adds the attributes that its calls register and changes nothing else. -/
theorem entries_runCalls (pp : PublicParameters S) (calls : List (String × Randomness)) :
    (∃ registry, (runCalls call pp calls).2 = { pp with registry }) ∧
      (runCalls call pp calls).2.registry.attributes.entries.Perm
        (newAttributes S calls (runCalls call pp calls).1 ++ pp.registry.attributes.entries) := by
  induction calls generalizing pp with
  | nil => exact ⟨⟨_, rfl⟩, .refl _⟩
  | cons c calls ih =>
    obtain ⟨⟨registry, hcall⟩, hperm⟩ := pp.entries_call c
    obtain ⟨⟨registry', hrest⟩, hperm'⟩ := ih (pp.call c).2
    refine ⟨⟨registry', hrest.trans (by rw [hcall])⟩, ?_⟩
    rw [newAttributes_cons]
    refine hperm'.trans ((hperm.append_left _).trans ?_)
    rw [← List.append_assoc]
    exact List.perm_append_comm.append_right _

/-- The ids of the attributes that were registered. -/
theorem map_fst_newAttributes :
    ∀ {calls : List (String × Randomness)} {results : List (Except Failure UInt32)},
      results.length = calls.length →
        (newAttributes S calls results).map Prod.fst = registeredIds results
  | [], [], _ => rfl
  | c :: calls, .error cause :: results, h => by
    have hrest := @map_fst_newAttributes calls results (Nat.succ.inj h)
    exact hrest
  | c :: calls, .ok id :: results, h => by
    have hrest := @map_fst_newAttributes calls results (Nat.succ.inj h)
    exact congrArg (id :: ·) hrest

/-- A run adds the ids that its calls give. -/
theorem perm_ids_runCalls (pp : PublicParameters S) (calls : List (String × Randomness)) :
    (runCalls call pp calls).2.registry.attributes.ids.Perm
      (registeredIds (runCalls call pp calls).1 ++ pp.registry.attributes.ids) := by
  have hids := (pp.entries_runCalls calls).2.map Prod.fst
  rwa [List.map_append, map_fst_newAttributes (length_runCalls call pp calls)] at hids

end PublicParameters

/-! ## Where parameters come from -/

/-- Reads public parameters, but keeps the tables of their registry only. -/
def Tables.read (S : Suite) : Reader (Tables S.G1) := do
  let (_, stored) ← PublicParameters.readFrames S
  let (result, t) := (Tables.restore stored).on .empty
  Reader.check (result.map fun _ => t)

/-- Reading tables accepts what reading parameters accepts, and gives the tables of their
registry. -/
theorem Tables.read_eq (S : Suite) :
    Tables.read S = (fun pp => pp.registry.tables) <$> PublicParameters.read S := by
  unfold Tables.read PublicParameters.read
  rw [map_bind]
  refine bind_congr fun frames => ?_
  have hrestore := Registry.on_restore Registry.empty frames.2
  rw [Registry.tables_empty] at hrestore
  simp only [hrestore, map_bind, map_pure]
  cases (Registry.empty.ofStored frames.2 : Except Failure (Registry S.G1)) <;> rfl

/-- What parameters come from. -/
inductive Origin where
  /-- A setup for a security level. -/
  | setup (bits : UInt32) (ρ : Randomness)
  /-- Stored bytes. -/
  | stored (bytes : List UInt8)

namespace Origin

/-- The parameters. -/
def parameters (S : Suite) : Origin → Except Failure (PublicParameters S)
  | .setup bits ρ => ((AttributeEncryption.setup S bits).result ρ).map Prod.fst
  | .stored bytes => Reader.ofBytes (PublicParameters.read S) bytes

/-- The tables of their registry. -/
def tables (S : Suite) : Origin → Except Failure (Tables S.G1)
  | .setup bits ρ => ((AttributeEncryption.setup S bits).result ρ).map fun _ => .empty
  | .stored bytes => Reader.ofBytes (Tables.read S) bytes

theorem tables_eq (S : Suite) (origin : Origin) :
    origin.tables S = (origin.parameters S).map fun pp => pp.registry.tables := by
  cases origin with
  | setup bits ρ =>
    unfold tables parameters
    simp only
    cases hsetup : (AttributeEncryption.setup S bits).result ρ with
    | error cause => rfl
    | ok made =>
      obtain ⟨pp, msk⟩ := made
      change Except.ok Tables.empty = .ok pp.registry.tables
      rw [registry_of_setup hsetup, Registry.tables_empty]
  | stored bytes =>
    unfold tables parameters
    simp only
    rw [Tables.read_eq, Reader.ofBytes_map]

end Origin

/-! ## Runs -/

/-- Registering in the tables of parameters gives the tables after registering. -/
theorem Origin.runCalls_tables {origin : Origin} {pp₀ : PublicParameters S}
    (h : origin.parameters S = .ok pp₀) (calls : List (String × Randomness)) :
    origin.tables S = .ok pp₀.registry.tables ∧
      runCalls (Tables.call S.g1) pp₀.registry.tables calls =
        ((runCalls PublicParameters.call pp₀ calls).1,
          (runCalls PublicParameters.call pp₀ calls).2.registry.tables) := by
  refine ⟨?_, runCalls_view (fun pp : PublicParameters S => pp.registry.tables)
    Tables.call_tables pp₀ calls⟩
  rw [Origin.tables_eq, h]
  rfl

/-- Wherever parameters come from and whatever is registered, updating the tables one after the
other gives what registering gives, and the tables stay in step. A registration fails for an
empty name, a name that is taken, or else if the greatest 32-bit number is taken, and then it
changes nothing; otherwise it gives the least id above all others. No id is given twice. -/
theorem registrations_in_step {origin : Origin} {pp₀ : PublicParameters S}
    (h : origin.parameters S = .ok pp₀) (calls : List (String × Randomness)) :
    ∃ t₀ results pp, origin.tables S = .ok t₀ ∧
      runCalls PublicParameters.call pp₀ calls = (results, pp) ∧
      runCalls (Tables.call S.g1) t₀ calls = (results, pp.registry.tables) ∧
      pp.registry.tables.InStep ∧
      (∀ name ρ, (pp.call (name, ρ)).1 =
        if name.isEmpty then .error (.invalidAttribute .emptyName)
        else if (pp.registry.tables.byName name).isSome then .error (.attributeExists name)
        else if (pp.registry.tables.byId 0xFFFFFFFF).isSome then
          .error (.invalidPublicParameters (.idAssignedTwice 0xFFFFFFFF))
        else .ok pp.registry.tables.nextId) ∧
      (∀ c id, (pp.call c).1 = .ok id →
        ((∀ i, pp.registry.tables.byId i = none) ∧ id = 0) ∨
          ∃ m, pp.registry.tables.Greatest m ∧ id.toNat = m.toNat + 1) ∧
      (∀ c cause, (pp.call c).1 = .error cause →
        (pp.call c).2 = pp ∧ (Tables.call S.g1 pp.registry.tables c).2 = pp.registry.tables) ∧
      (PublicParameters.registeredIds results ++ pp₀.registry.attributes.ids).Nodup := by
  have htables : origin.tables S = .ok pp₀.registry.tables := by
    rw [Origin.tables_eq, h]
    rfl
  have hrun := runCalls_view (fun pp : PublicParameters S => pp.registry.tables)
    Tables.call_tables pp₀ calls
  have hids := pp₀.perm_ids_runCalls calls
  rcases hcalls : runCalls PublicParameters.call pp₀ calls with ⟨results, pp⟩
  rw [hcalls] at hrun hids
  refine ⟨_, results, pp, htables, rfl, hrun, pp.registry.tables_inStep, pp.fst_call_eq,
    fun c id => PublicParameters.id_of_call, fun c cause hc => ?_, hids.nodup_iff.mp ?_⟩
  · have hcall := Tables.call_tables pp c
    rw [hc] at hcall
    exact ⟨PublicParameters.call_of_error hc, Tables.call_of_error (congrArg Prod.fst hcall)⟩
  · exact IdMap.nodup_ids _

/-- Parameters over the exponents with the ids `2 ^ 32 - 2` and 7, in this order. -/
def sparseParameters : List UInt8 :=
  let scalars : List Scalar := [1, 1, 2, 3]
  let points : List (UInt32 × Attribute Scalar) := [(0xFFFFFFFE, ⟨"b", 4⟩), (7, ⟨"a", 5⟩)]
  let frames := [Frame.bytes schemeTag, .ok (Frame.word 128), Frame.text pairingDescription] ++
    scalars.map (Frame.element Scalar.codec) ++ [Frame.length 2] ++
    points.map (@PublicParameters.writeAttribute exponents)
  (Frame.sequence frames).toOption.getD []

/-- The greatest 32-bit number is still given, and then no other id. -/
theorem registrations_up_to_greatest :
    ∃ (calls : List (String × Randomness)) (results : List (Except Failure UInt32))
      (pp₀ pp : PublicParameters exponents) (t₀ : Tables Scalar),
      calls = [("a", .ofWords #[1]), ("", .ofWords #[1]), ("c", .ofWords #[1]),
        ("d", .ofWords #[1])] ∧
      results = [.error (.attributeExists "a"), .error (.invalidAttribute .emptyName),
        .ok 0xFFFFFFFF, .error (.invalidPublicParameters (.idAssignedTwice 0xFFFFFFFF))] ∧
      (Origin.stored sparseParameters).parameters exponents = .ok pp₀ ∧
      (Origin.stored sparseParameters).tables exponents = .ok t₀ ∧
      runCalls PublicParameters.call pp₀ calls = (results, pp) ∧
      runCalls (Tables.call exponents.g1) t₀ calls = (results, pp.registry.tables) ∧
      pp.registry.tables.InStep := by
  have hresults : ((Origin.stored sparseParameters).parameters exponents).map (fun pp₀ =>
      (runCalls PublicParameters.call pp₀ [("a", .ofWords #[1]), ("", .ofWords #[1]),
        ("c", .ofWords #[1]), ("d", .ofWords #[1])]).1) =
      .ok [.error (.attributeExists "a"), .error (.invalidAttribute .emptyName),
        .ok 0xFFFFFFFF, .error (.invalidPublicParameters (.idAssignedTwice 0xFFFFFFFF))] := by
    decide +kernel
  obtain ⟨pp₀, hpp₀, heq⟩ := exists_of_map_eq_ok hresults
  obtain ⟨t₀, results, pp, ht₀, hrun, htables, hstep, -⟩ := registrations_in_step hpp₀
    [("a", .ofWords #[1]), ("", .ofWords #[1]), ("c", .ofWords #[1]), ("d", .ofWords #[1])]
  exact ⟨_, results, pp₀, pp, t₀, rfl, (congrArg Prod.fst hrun).symm.trans heq, hpp₀, ht₀, hrun,
    htables, hstep⟩

end AttributeEncryption
