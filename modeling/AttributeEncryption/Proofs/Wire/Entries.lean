import AttributeEncryption.Proofs.Scheme.Attributes
import AttributeEncryption.Proofs.Wire.Frames
import AttributeEncryption.Scheme.Wire

/-!
# Stored entries

Maps and registries are stored entry by entry, with ascending ids. Inserting the entries in this
order puts each at the end, so the whole comes back (`Registry.ofStored_eq`,
`PrivateKey.takes_readComponents`). In another order, and with ids and names that are not
repeated, no entry is lost (`Registry.perm_ofStored`, `PrivateKey.size_of_readComponents`).
-/

namespace AttributeEncryption

/-! ## Maps -/

namespace IdMap

variable {α : Type} {m whole : IdMap α} {id : UInt32} {a : α} {rest : List (UInt32 × α)}

theorem eq_of_entries {m m' : IdMap α} (h : m.entries = m'.entries) : m = m' := by
  cases m
  cases m'
  cases h
  rfl

/-- An id above all others comes last. -/
theorem insertEntry_of_forall_lt {entries : List (UInt32 × α)} (h : ∀ e ∈ entries, e.1 < id) :
    insertEntry id a entries = entries ++ [(id, a)] := by
  induction entries with
  | nil => rfl
  | cons e entries ih =>
    obtain ⟨he, h⟩ := List.forall_mem_cons.mp h
    rw [insertEntry, if_neg (UInt32.lt_asymm he), if_neg (UInt32.ne_of_lt he).symm, ih h,
      List.cons_append]

/-- The ids of the first entries of a map are less than that of the next one. -/
theorem forall_lt_next (h : whole.entries = m.entries ++ (id, a) :: rest) :
    ∀ e ∈ m.entries, e.1 < id := by
  intro e he
  have hascending := whole.ascending
  rw [h] at hascending
  exact (List.pairwise_append.mp hascending).2.2 e he _ List.mem_cons_self

theorem contains_next (h : whole.entries = m.entries ++ (id, a) :: rest) :
    m.contains id = false := by
  rw [← Bool.not_eq_true, contains_iff]
  rintro ⟨b, hb⟩
  exact absurd (forall_lt_next h _ hb) (UInt32.lt_irrefl id)

/-- The next entry of a map is put after the first ones. -/
theorem entries_insert_next (h : whole.entries = m.entries ++ (id, a) :: rest) :
    whole.entries = (m.insert id a).entries ++ rest := by
  change whole.entries = insertEntry id a m.entries ++ rest
  rw [insertEntry_of_forall_lt (forall_lt_next h), h, List.append_assoc, List.singleton_append]

end IdMap

/-! ## Registries -/

namespace Registry

variable {P : Type}

theorem eq_of_entries {r r' : Registry P} (h : r.attributes.entries = r'.attributes.entries) :
    r = r' := by
  cases r
  cases r'
  cases IdMap.eq_of_entries h
  rfl

/-- The entries of a registry give it back. -/
theorem ofStored_eq {whole : Registry P} : ∀ {rest : List (UInt32 × Attribute P)}
    {r : Registry P}, whole.attributes.entries = r.attributes.entries ++ rest →
      r.ofStored rest = .ok whole
  | [], r, h => by
    rw [List.append_nil] at h
    rw [eq_of_entries h]
    rfl
  | (id, a) :: rest, r, h => by
    have hname : a.name ∉ namesOf r.attributes.entries := by
      have hnodup := whole.names_nodup
      rw [h, namesOf, List.map_append, List.nodup_append] at hnodup
      exact fun hmem => hnodup.2.2 a.name hmem a.name (by simp) rfl
    have hinsert : r.insert id a =
        .ok ⟨r.attributes.insert id a, nodup_namesOf_insertEntry r.names_nodup hname⟩ := by
      rw [insert, dif_neg hname, if_neg (by rw [IdMap.contains_next h]; decide)]
    rw [ofStored, hinsert]
    exact ofStored_eq (IdMap.entries_insert_next h)

/-- Every stored attribute is one of the registry. -/
theorem perm_ofStored : ∀ {stored : List (UInt32 × Attribute P)} {r r' : Registry P},
    r.ofStored stored = .ok r' → r'.attributes.entries.Perm (stored ++ r.attributes.entries)
  | [], r, r', h => by
    cases h
    exact .refl _
  | (id, a) :: stored, r, r', h => by
    rw [ofStored] at h
    cases hinsert : r.insert id a with
    | error cause =>
      rw [hinsert] at h
      cases h
    | ok r₁ =>
      rw [hinsert] at h
      obtain ⟨-, hid, hattributes⟩ := attributes_of_insert hinsert
      have hperm : r₁.attributes.entries.Perm ((id, a) :: r.attributes.entries) := by
        rw [hattributes]
        exact IdMap.perm_insertEntry (IdMap.ne_of_contains_eq_false hid)
      exact (perm_ofStored h).trans ((hperm.append_left stored).trans List.perm_middle)

end Registry

/-! ## Components -/

namespace PrivateKey

variable {S : Suite}

theorem takes_readComponents (hS : S.Encodes) {whole : IdMap S.G1} :
    ∀ {rest : List (UInt32 × S.G1)} {components : IdMap S.G1} {bytes : List UInt8},
      whole.entries = components.entries ++ rest →
      Frame.sequence (rest.map (@writeComponent S)) = .ok bytes →
      (readComponents S rest.length components).Takes bytes whole
  | [], components, bytes, h, hbytes => by
    cases hbytes
    rw [List.append_nil] at h
    rw [IdMap.eq_of_entries h]
    exact .pure components
  | (id, c) :: rest, components, bytes, h, hbytes => by
    obtain ⟨head, tail, hhead, htail, rfl⟩ := Frame.sequence_cons_eq_ok.mp hbytes
    obtain ⟨word, element, hword, helement, rfl⟩ := Frame.sequence_cons_eq_ok.mp hhead
    have hnew : ¬ components.contains id := by
      rw [IdMap.contains_next h]
      decide
    have hrest := takes_readComponents hS (IdMap.entries_insert_next h) htail
    rw [List.append_assoc]
    refine (Reader.takes_word_frame hword).bind (.bind ?_ (.of_not hnew hrest))
    exact Reader.takes_element hS.g1 (Frame.sequence_singleton_eq_ok.mp helement)

/-- Reading components adds as many as it is asked for. -/
theorem size_of_readComponents : ∀ {count : ℕ} {components out : IdMap S.G1}
    {input rest : List UInt8}, readComponents S count components input = .ok (out, rest) →
      out.size = components.size + count
  | 0, components, out, input, rest, h => by
    cases h
    rfl
  | count + 1, components, out, input, rest, h => by
    obtain ⟨id, mid, -, h₁⟩ := Reader.bind_inv h
    obtain ⟨c, mid', -, h₂⟩ := Reader.bind_inv h₁
    split_ifs at h₂ with hid
    · cases h₂
    · have hnew := IdMap.ne_of_contains_eq_false (Bool.eq_false_iff.mpr hid)
      have hsize : (components.insert id c).size = components.size + 1 :=
        (IdMap.perm_insertEntry hnew).length_eq
      rw [size_of_readComponents h₂, hsize]
      omega

end PrivateKey

end AttributeEncryption
