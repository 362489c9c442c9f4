import AttributeEncryption.Proofs.Scheme.Registrations
import AttributeEncryption.Proofs.Wire.Entries

/-!
# Attributes without a name

Registering refuses the empty name, whatever is registered (`name_ne_of_mem_newAttributes`).
Reading stored parameters does not : it takes what the bytes list (`Origin.perm_listed`). So a
registry has an attribute without a name exactly if it was read from bytes that list one, and
no registration adds or removes it (`unnamed_iff_listed`).
-/

namespace AttributeEncryption

variable {S : Suite} {pp₀ : PublicParameters S} {origin : Origin}

/-- The attributes that are listed where parameters come from. -/
def Origin.listed (S : Suite) : Origin → List (UInt32 × Attribute S.G1)
  | .setup _ _ => []
  | .stored bytes =>
    ((Reader.ofBytes (PublicParameters.readFrames S) bytes).toOption.map Prod.snd).getD []

/-- Parameters start with the attributes that are listed. -/
theorem Origin.perm_listed (h : origin.parameters S = .ok pp₀) :
    pp₀.registry.attributes.entries.Perm (origin.listed S) := by
  cases origin with
  | setup bits ρ =>
    obtain ⟨⟨pp, msk⟩, hsetup, rfl⟩ := exists_of_map_eq_ok h
    rw [registry_of_setup hsetup]
    exact .refl _
  | stored bytes =>
    obtain ⟨⟨pp, rest⟩, hread, rfl⟩ := exists_of_map_eq_ok h
    obtain ⟨⟨frames, stored⟩, mid, hframes, h₁⟩ := Reader.bind_inv hread
    obtain ⟨registry, mid', hregistry, hpure⟩ := Reader.bind_inv h₁
    cases hpure
    have hlisted : (Origin.stored bytes).listed S = stored := by
      unfold listed Reader.ofBytes
      simp only [hframes]
      rfl
    have hperm := Registry.perm_ofStored (Reader.check_inv hregistry).1
    have hempty : (Registry.empty : Registry S.G1).attributes.entries = [] := rfl
    rwa [hempty, List.append_nil, ← hlisted] at hperm

namespace PublicParameters

/-- An attribute that a call registers has a name. -/
theorem name_ne_of_call (pp : PublicParameters S) (c : String × Randomness) :
    ∀ e ∈ newAttributes S [c] [(pp.call c).1], e.2.name ≠ "" := by
  obtain ⟨name, ρ⟩ := c
  intro e he
  obtain ⟨⟨c', result⟩, hmem, hsome⟩ := List.mem_filterMap.mp he
  obtain ⟨rfl, rfl⟩ : c' = (name, ρ) ∧ result = (pp.call (name, ρ)).1 := by simpa using hmem
  obtain ⟨id, hid, rfl⟩ := Option.map_eq_some_iff.mp hsome
  rintro rfl
  -- the empty name is refused before anything else
  rw [fst_call_eq, if_pos (by decide)] at hid
  cases hid

/-- All attributes that a run registers have names. -/
theorem name_ne_of_mem_newAttributes (pp : PublicParameters S)
    (calls : List (String × Randomness)) :
    ∀ e ∈ newAttributes S calls (runCalls call pp calls).1, e.2.name ≠ "" := by
  induction calls generalizing pp with
  | nil => simp [newAttributes]
  | cons c calls ih =>
    rw [newAttributes_cons]
    exact List.forall_mem_append.mpr ⟨pp.name_ne_of_call c, ih (pp.call c).2⟩

end PublicParameters

/-- Wherever parameters come from and whatever is registered : the attributes without a name are
those that were listed without one. In particular all attributes have names exactly if all that
were listed have. -/
theorem unnamed_iff_listed (h : origin.parameters S = .ok pp₀)
    (calls : List (String × Randomness)) :
    let pp := (runCalls PublicParameters.call pp₀ calls).2
    (∀ e : UInt32 × Attribute S.G1, e.2.name = "" →
      (e ∈ pp.registry.attributes.entries ↔ e ∈ origin.listed S)) ∧
    ((∀ e ∈ pp.registry.attributes.entries, e.2.name ≠ "") ↔
      ∀ e ∈ origin.listed S, e.2.name ≠ "") := by
  intro pp
  have hperm := (pp₀.entries_runCalls calls).2
  have hunnamed : ∀ e : UInt32 × Attribute S.G1, e.2.name = "" →
      (e ∈ pp.registry.attributes.entries ↔ e ∈ origin.listed S) := by
    intro e he
    rw [hperm.mem_iff, List.mem_append, (Origin.perm_listed h).mem_iff]
    refine or_iff_right fun hnew => ?_
    exact pp₀.name_ne_of_mem_newAttributes calls e hnew he
  refine ⟨hunnamed, fun hall e he hname => ?_, fun hall e he hname => ?_⟩
  · exact hall e ((hunnamed e hname).mpr he) hname
  · exact hall e ((hunnamed e hname).mp he) hname

/-- Parameters with one attribute, which has no name. -/
def unnamedParameters : List UInt8 :=
  let g1 := Frame.element bn254.g1.codec bn254.g1.generator
  let frames := [Frame.bytes schemeTag, .ok (Frame.word 128), Frame.text pairingDescription, g1,
    Frame.element bn254.g2.codec bn254.g2.generator, g1,
    Frame.element bn254.gt.codec bn254.gt.one, Frame.length 1,
    @PublicParameters.writeAttribute bn254 (0, ⟨"", bn254.g1.generator⟩)]
  (Frame.sequence frames).toOption.getD []

theorem exists_unnamedParameters :
    ∃ pp, (Origin.stored unnamedParameters).parameters bn254 = .ok pp ∧
      ∃ e ∈ pp.registry.attributes.entries, e.2.name = "" := by
  have hread : ((Origin.stored unnamedParameters).parameters bn254).map (fun pp =>
      namesOf pp.registry.attributes.entries) = .ok [""] := by
    decide +kernel
  obtain ⟨pp, hpp, hnames⟩ := exists_of_map_eq_ok hread
  have hmem : "" ∈ namesOf pp.registry.attributes.entries := by
    rw [hnames]
    exact List.mem_singleton_self ""
  exact ⟨pp, hpp, List.mem_map.mp hmem⟩

/-- The attribute without a name is still there after one more is registered. -/
theorem unnamed_stays_listed :
    ∃ pp₀ : PublicParameters bn254,
      (Origin.stored unnamedParameters).parameters bn254 = .ok pp₀ ∧
      ∃ e ∈ (runCalls PublicParameters.call pp₀
        [("a", .ofWords #[1])]).2.registry.attributes.entries, e.2.name = "" := by
  obtain ⟨pp₀, hpp₀, e, he, hname⟩ := exists_unnamedParameters
  obtain ⟨hunnamed, -⟩ := unnamed_iff_listed hpp₀ [("a", .ofWords #[1])]
  have hlisted := (Origin.perm_listed hpp₀).mem_iff.mp he
  exact ⟨pp₀, hpp₀, e, (hunnamed e hname).mpr hlisted, hname⟩

/-- Stored bytes bring along an attribute without a name, which registering refuses. -/
theorem unnamed_attribute_read :
    ∃ pp : PublicParameters bn254,
      (Origin.stored unnamedParameters).parameters bn254 = .ok pp ∧
      (∃ e ∈ pp.registry.attributes.entries, e.2.name = "") ∧
      ∀ ρ, (pp.call ("", ρ)).1 = .error (.invalidAttribute .emptyName) := by
  obtain ⟨pp, hpp, hunnamed⟩ := exists_unnamedParameters
  exact ⟨pp, hpp, hunnamed, fun ρ => by rw [pp.fst_call_eq, if_pos (by decide)]⟩

end AttributeEncryption
