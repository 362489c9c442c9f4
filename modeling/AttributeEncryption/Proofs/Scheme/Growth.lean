import AttributeEncryption.Proofs.Scheme.Checks
import AttributeEncryption.Proofs.Scheme.Registrations
import AttributeEncryption.Proofs.Wire.Frames

/-!
# Growth of the registry

Registrations add attributes to the parameters and change nothing else
(`PublicParameters.Grows`), even if some of them fail (`PublicParameters.grows_runCalls`). So
whatever was looked up, compiled, issued, encrypted, checked, decrypted or read under the
parameters comes out the same under the grown ones, with the same draws (`growth_keeps_results`).

What persists is a success with its value (`Persists`); there is one rule for each way in which
computations are put together.
-/

namespace AttributeEncryption

/-! ## Successes that persist -/

/-- Whatever the first computation gives, the second one gives as well. -/
def Persists {ε α : Type} (x y : Except ε α) : Prop :=
  ∀ a, x = .ok a → y = .ok a

namespace Persists

variable {ε α β : Type} {x y : Except ε α}

theorem refl (x : Except ε α) : Persists x x :=
  fun _ h => h

/-- The rule for two computations in a row. -/
theorem bind {f g : α → Except ε β} (hx : Persists x y) (hf : ∀ a, Persists (f a) (g a)) :
    Persists (x >>= f) (y >>= g) := by
  intro b hb
  cases hxa : x with
  | error cause =>
    rw [hxa] at hb
    cases hb
  | ok a =>
    rw [hxa] at hb
    rw [hx a hxa]
    exact hf a b hb

/-- The rule for a computation on every item of a list. -/
theorem mapM {f g : α → Except ε β} (h : ∀ a, Persists (f a) (g a)) :
    ∀ l : List α, Persists (l.mapM f) (l.mapM g)
  | [] => refl _
  | a :: l => by
    rw [List.mapM_cons, List.mapM_cons]
    exact (h a).bind fun b => (mapM h l).bind fun bs => refl _

end Persists

/-- Whatever the first random computation gives, the second one gives as well, and it leaves the
same random words. -/
def Trial.Persists {α : Type} (x y : Trial α) : Prop :=
  ∀ ρ a ρ', x.Gives ρ a ρ' → y.Gives ρ a ρ'

namespace Trial.Persists

variable {α β : Type} {x y : Trial α}

theorem refl (x : Trial α) : Persists x x :=
  fun _ _ _ h => h

theorem bind {f g : α → Trial β} (hx : Persists x y) (hf : ∀ a, Persists (f a) (g a)) :
    Persists (x >>= f) (y >>= g) := by
  intro ρ b ρ'' h
  obtain ⟨a, ρ', ha, hb⟩ := h.bind_inv
  exact (hx ρ a ρ' ha).bind (hf a ρ' b ρ'' hb)

theorem lift {x y : Except Failure α} (h : AttributeEncryption.Persists x y) :
    Persists (liftM x) (liftM y) := by
  intro ρ a ρ' hx
  obtain rfl := hx.lift_state
  exact .lift (h a hx.lift_inv) ρ

end Trial.Persists

/-- Whatever the first reader takes off an input, the second one takes off as well. -/
def Reader.Persists {α : Type} (x y : Reader α) : Prop :=
  ∀ input, AttributeEncryption.Persists (x input) (y input)

namespace Reader.Persists

variable {α β : Type} {x y : Reader α}

theorem refl (x : Reader α) : Persists x x :=
  fun _ => .refl _

theorem bind {f g : α → Reader β} (hx : Persists x y) (hf : ∀ a, Persists (f a) (g a)) :
    Persists (x >>= f) (y >>= g) :=
  fun input => (hx input).bind fun out => hf out.1 out.2

theorem check {x y : Except Failure α} (h : AttributeEncryption.Persists x y) :
    Persists (Reader.check x) (Reader.check y) := by
  rintro input ⟨a, rest⟩ hx
  obtain ⟨ha, rfl⟩ := Reader.check_inv hx
  unfold Reader.check
  rw [h a ha]
  rfl

end Reader.Persists

/-- Replacing the leaves of a formula persists if replacing one leaf does. -/
theorem Formula.persists_traverse {ε α β : Type} {k k' : α → Except ε β}
    (h : ∀ a, Persists (k a) (k' a)) (f : Formula α) :
    Persists (f.traverse k) (f.traverse k') := by
  induction f with
  | leaf a =>
    intro g hg
    obtain ⟨b, hb, rfl⟩ := exists_of_map_eq_ok hg
    rw [traverse, h a b hb]
    rfl
  | and l r hl hr => exact hl.bind fun l' => hr.bind fun r' => .refl _
  | or l r hl hr => exact hl.bind fun l' => hr.bind fun r' => .refl _

variable {S : Suite}

/-! ## Parameters that grow -/

namespace PublicParameters

/-- The second parameters are the first ones with more attributes. -/
structure Grows (pp pp' : PublicParameters S) : Prop where
  exists_registry : ∃ registry, pp' = { pp with registry }
  mem_entries : ∀ e ∈ pp.registry.attributes.entries, e ∈ pp'.registry.attributes.entries

/-- Registering a name grows the parameters. -/
theorem grows_call (pp : PublicParameters S) (c : String × Randomness) :
    pp.Grows (pp.call c).2 where
  exists_registry := (pp.entries_call c).1
  mem_entries _ he := (pp.entries_call c).2.mem_iff.mpr (List.mem_append_right _ he)

/-- Registering names grows the parameters. -/
theorem grows_runCalls (pp : PublicParameters S) (calls : List (String × Randomness)) :
    pp.Grows (runCalls call pp calls).2 where
  exists_registry := (pp.entries_runCalls calls).1
  mem_entries _ he := (pp.entries_runCalls calls).2.mem_iff.mpr (List.mem_append_right _ he)

/-- So does registering them one by one. -/
theorem grows_of_registrations {pp pp' : PublicParameters S} (hpp : Registrations pp pp') :
    pp.Grows pp' where
  exists_registry := by
    induction hpp with
    | refl => exact ⟨_, rfl⟩
    | step _ hregister ih =>
      obtain ⟨k, registry, -, rfl⟩ := registry_of_register hregister
      obtain ⟨registry', rfl⟩ := ih
      exact ⟨registry, rfl⟩
  mem_entries := hpp.mem_entries

namespace Grows

theorem refl (pp : PublicParameters S) : pp.Grows pp :=
  ⟨⟨_, rfl⟩, fun _ he => he⟩

theorem trans {pp pp' pp'' : PublicParameters S} (h : pp.Grows pp') (h' : pp'.Grows pp'') :
    pp.Grows pp'' where
  exists_registry := by
    obtain ⟨registry, rfl⟩ := h.exists_registry
    obtain ⟨registry', rfl⟩ := h'.exists_registry
    exact ⟨registry', rfl⟩
  mem_entries e he := h'.mem_entries e (h.mem_entries e he)

variable {pp pp' : PublicParameters S} (h : pp.Grows pp')

include h

/-! ### Look-ups -/

theorem attribute? (id : UInt32) (a : Attribute S.G1) (ha : pp.registry.attribute? id = some a) :
    pp'.registry.attribute? id = some a :=
  Registry.attribute?_eq_some_iff.mpr
    (h.mem_entries _ (Registry.attribute?_eq_some_iff.mp ha))

theorem named? (name : String) (b : UInt32 × Attribute S.G1)
    (hb : pp.registry.named? name = some b) : pp'.registry.named? name = some b := by
  obtain ⟨hmem, hname⟩ := Registry.named?_eq_some_iff.mp hb
  exact Registry.named?_eq_some_iff.mpr ⟨h.mem_entries _ hmem, hname⟩

theorem idOf? (name : String) (id : UInt32) (hid : pp.registry.idOf? name = some id) :
    pp'.registry.idOf? name = some id := by
  obtain ⟨a, hmem, hname⟩ := Registry.idOf?_eq_some_iff.mp hid
  exact Registry.idOf?_eq_some_iff.mpr ⟨a, h.mem_entries _ hmem, hname⟩

theorem knows {id : UInt32} (hid : pp.knows id = true) : pp'.knows id = true := by
  obtain ⟨a, ha⟩ := Option.isSome_iff_exists.mp hid
  rw [PublicParameters.knows, h.attribute? id a ha]
  rfl

theorem lookUpNames (names : List String) :
    Persists (pp.lookUpNames names) (pp'.lookUpNames names) := by
  refine .mapM (fun name => ?_) names
  intro b hb
  split at hb
  · next a hnamed => rwa [h.named? name a hnamed]
  · cases hb

theorem lookUpIds (ids : List UInt32) : Persists (pp.lookUpIds ids) (pp'.lookUpIds ids) := by
  refine .mapM (fun id => ?_) ids
  intro b hb
  split at hb
  · next a ha => rwa [h.attribute? id a ha]
  · cases hb

/-! ### Policies, keys and headers -/

theorem compile (policy : Policy) : Persists (pp.compile policy) (pp'.compile policy) := by
  refine .bind (Formula.persists_traverse (fun name => ?_) policy) fun tree => .refl _
  intro id hid
  split at hid
  · next id' hid' => rwa [h.idOf? name id' hid']
  · cases hid

/-- The check of a master key does not look at the attributes. -/
theorem checkMasterKey_eq : pp'.checkMasterKey = pp.checkMasterKey := by
  obtain ⟨registry, rfl⟩ := h.exists_registry
  rfl

theorem issue_eq : pp'.issue = pp.issue := by
  obtain ⟨registry, rfl⟩ := h.exists_registry
  rfl

theorem issueForNames (msk : MasterKey S) (names : List String) :
    Trial.Persists (pp.issueForNames msk names) (pp'.issueForNames msk names) := by
  refine .bind (.lift (h.lookUpNames names)) fun attributes => ?_
  rw [h.issue_eq]
  exact .refl _

theorem issueForIds (msk : MasterKey S) (ids : List UInt32) :
    Trial.Persists (pp.issueForIds msk ids) (pp'.issueForIds msk ids) := by
  refine .bind (.lift (h.lookUpIds ids)) fun attributes => ?_
  rw [h.issue_eq]
  exact .refl _

theorem drawPairs_eq : ∀ rows, pp'.drawPairs rows = pp.drawPairs rows
  | [] => rfl
  | ((id, a), share) :: rows => by
    have hrows := drawPairs_eq rows
    obtain ⟨registry, rfl⟩ := h.exists_registry
    simp only [PublicParameters.drawPairs, hrows]

theorem encapsulate (matrix : ShareMatrix) :
    Trial.Persists (pp.encapsulate matrix) (pp'.encapsulate matrix) := by
  refine .bind (.lift (h.lookUpIds matrix.labels)) fun attributes => ?_
  simp only [h.drawPairs_eq]
  obtain ⟨registry, rfl⟩ := h.exists_registry
  exact .refl _

theorem encrypt (matrix : ShareMatrix) (data : List UInt8) :
    Trial.Persists (pp.encrypt matrix data) (pp'.encrypt matrix data) :=
  .bind (h.encapsulate matrix) fun _ => .refl _

theorem wrap (matrix : ShareMatrix) (data : List UInt8) :
    Trial.Persists (pp.wrap matrix data) (pp'.wrap matrix data) :=
  .bind (h.encapsulate matrix) fun _ => .refl _

/-! ### Checks and recovery -/

/-- An id that is not registered later was not registered before. -/
theorem exists_unknown {ids : List UInt32} (hunknown : ∃ id ∈ ids, pp'.knows id = false) :
    ∃ id ∈ ids, pp.knows id = false := by
  obtain ⟨id, hid, hnot⟩ := hunknown
  refine ⟨id, hid, Bool.eq_false_iff.mpr fun hknows => ?_⟩
  rw [h.knows hknows] at hnot
  cases hnot

theorem checkPrivateKey (sk : PrivateKey S) :
    Persists (pp.checkPrivateKey sk) (pp'.checkPrivateKey sk) := by
  intro _ hcheck
  refine checkPrivateKey_eq_ok_iff.mpr fun hrefused => checkPrivateKey_eq_ok_iff.mp hcheck ?_
  refine hrefused.imp (fun hpair => ?_) h.exists_unknown
  obtain ⟨registry, rfl⟩ := h.exists_registry
  exact hpair

theorem checkHeader (header : Header S) :
    Persists (pp.checkHeader header) (pp'.checkHeader header) := by
  intro _ hcheck
  refine checkHeader_eq_ok_iff.mpr fun hrefused => checkHeader_eq_ok_iff.mp hcheck ?_
  exact hrefused.imp id h.exists_unknown

theorem recover (header : Header S) (sk : PrivateKey S) :
    Persists (pp.recover header sk) (pp'.recover header sk) :=
  (h.checkPrivateKey sk).bind fun _ => (h.checkHeader header).bind fun _ => .refl _

theorem decrypt (ct : Ciphertext S) (sk : PrivateKey S) :
    Persists (pp.decrypt ct sk) (pp'.decrypt ct sk) :=
  (h.recover ct.header sk).bind fun _ => .refl _

theorem unwrap (ct : Ciphertext S) (sk : PrivateKey S) :
    Persists (pp.unwrap ct sk) (pp'.unwrap ct sk) :=
  (h.recover ct.header sk).bind fun _ => .refl _

/-! ### Stored objects -/

theorem readMasterKey_eq : MasterKey.read pp' = MasterKey.read pp := by
  unfold MasterKey.read
  rw [h.checkMasterKey_eq]

theorem readPrivateKey : Reader.Persists (PrivateKey.read pp) (PrivateKey.read pp') :=
  .bind (.refl _) fun _ => .bind (.refl _) fun _ => .bind (.refl _) fun _ =>
    .bind (.refl _) fun _ => .bind (.refl _) fun _ => .bind (.check (h.checkPrivateKey _)) fun _ => .refl _

theorem readCiphertext : Reader.Persists (Ciphertext.read pp) (Ciphertext.read pp') :=
  .bind (.refl _) fun _ => .bind (.refl _) fun header =>
    .bind (.check (h.checkHeader header)) fun _ => .refl _

end Grows

end PublicParameters

/-- Whatever is registered, and however often in vain, the parameters keep their attributes and
get those that the calls registered. Look-ups, in the tables too, find what they found, and
whatever was compiled, issued, encapsulated, encrypted, wrapped, recovered, decrypted or
unwrapped comes out the same, with the same draws. What passed a check or was read passes it or
is read again; the check of a master key does not change at all. -/
theorem growth_keeps_results (pp : PublicParameters S) (calls : List (String × Randomness)) :
    ∃ results pp' t', runCalls PublicParameters.call pp calls = (results, pp') ∧
      runCalls (Tables.call S.g1) pp.registry.tables calls = (results, t') ∧
      pp'.registry.attributes.entries.Perm
        (PublicParameters.newAttributes S calls results ++ pp.registry.attributes.entries) ∧
      ((∀ id e, pp.registry.tables.byId id = some e → t'.byId id = some e) ∧
        (∀ name id, pp.registry.tables.byName name = some id → t'.byName name = some id) ∧
        (∀ name b, pp.registry.named? name = some b → pp'.registry.named? name = some b) ∧
        (∀ id a, pp.registry.attribute? id = some a → pp'.registry.attribute? id = some a) ∧
        ∀ name id, pp.registry.idOf? name = some id → pp'.registry.idOf? name = some id) ∧
      (∀ policy, Persists (pp.compile policy) (pp'.compile policy)) ∧
      ((∀ msk names, (pp.issueForNames msk names).Persists (pp'.issueForNames msk names)) ∧
        ∀ msk ids, (pp.issueForIds msk ids).Persists (pp'.issueForIds msk ids)) ∧
      ((∀ matrix, (pp.encapsulate matrix).Persists (pp'.encapsulate matrix)) ∧
        (∀ matrix data, (pp.encrypt matrix data).Persists (pp'.encrypt matrix data)) ∧
        ∀ matrix data, (pp.wrap matrix data).Persists (pp'.wrap matrix data)) ∧
      (pp'.checkMasterKey = pp.checkMasterKey ∧
        ∀ sk, Persists (pp.checkPrivateKey sk) (pp'.checkPrivateKey sk)) ∧
      ((∀ header sk, Persists (pp.recover header sk) (pp'.recover header sk)) ∧
        (∀ ct sk, Persists (pp.decrypt ct sk) (pp'.decrypt ct sk)) ∧
        ∀ ct sk, Persists (pp.unwrap ct sk) (pp'.unwrap ct sk)) ∧
      MasterKey.read pp' = MasterKey.read pp ∧
      Reader.Persists (PrivateKey.read pp) (PrivateKey.read pp') ∧
      Reader.Persists (Ciphertext.read pp) (Ciphertext.read pp') := by
  have hrun := runCalls_view (fun pp : PublicParameters S => pp.registry.tables)
    Tables.call_tables pp calls
  have hentries := (pp.entries_runCalls calls).2
  have h := pp.grows_runCalls calls
  rcases hcalls : runCalls PublicParameters.call pp calls with ⟨results, pp'⟩
  rw [hcalls] at hrun hentries h
  refine ⟨results, pp', _, rfl, hrun, hentries,
    ⟨fun id e he => ?_, h.idOf?, h.named?, h.attribute?, h.idOf?⟩, h.compile,
    ⟨h.issueForNames, h.issueForIds⟩, ⟨h.encapsulate, h.encrypt, h.wrap⟩,
    ⟨h.checkMasterKey_eq, h.checkPrivateKey⟩, ⟨h.recover, h.decrypt, h.unwrap⟩,
    h.readMasterKey_eq, h.readPrivateKey, h.readCiphertext⟩
  obtain ⟨hmem, hid⟩ := Registry.byId_eq_some_iff.mp he
  exact Registry.byId_eq_some_iff.mpr ⟨h.mem_entries e hmem, hid⟩

end AttributeEncryption
