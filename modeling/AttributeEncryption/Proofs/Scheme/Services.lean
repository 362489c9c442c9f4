import AttributeEncryption.Proofs.Scheme.Growth
import AttributeEncryption.Service

/-!
# Runs of services

Services are set up, share their parameters, get master keys, register attributes and are asked
for keys and ciphertexts, in any order. `Deployment.Effect` says what one call can do to a
deployment : add parameters, place or remove a service, or register an attribute. Its master keys
belong to their parameters, whose attributes stay (`Effect.sound`, `Effect.exists_grown`), and so
it is after every run (`services_keep_keys`).

A service then issues keys unless it has no master key : the second check of its key, which is
made with every key that it issues, cannot fail.
-/

open scoped Fin.CommRing

namespace AttributeEncryption

variable {S : Suite}

namespace Deployment

variable {d d' : Deployment S} {name : String} {s : Service S} {pp : PublicParameters S}
  {place : ℕ} {ρ : Randomness}

/-! ## Calls -/

/-- What a call gives with some random words, and the deployment after it. -/
def call (d : Deployment S) (c : Call S × Randomness) : Outcome S :=
  (d.perform c.1).value c.2

theorem find?_eq_some_iff :
    d.find? name = some (s, pp) ↔ d.service? name = some s ∧ d.parametersOf? s = some pp := by
  unfold find?
  constructor
  · intro h
    obtain ⟨s', hs, h⟩ := Option.bind_eq_some_iff.mp h
    obtain ⟨pp', hpp, h⟩ := Option.bind_eq_some_iff.mp h
    obtain ⟨rfl, rfl⟩ := Prod.mk.inj (Option.some.inj h)
    exact ⟨hs, hpp⟩
  · rintro ⟨hs, hpp⟩
    rw [hs, Option.bind_eq_bind, Option.bind_some, hpp]
    rfl

/-- An attempt keeps the deployment if it fails. -/
theorem value_attempt (d : Deployment S) (t : Trial (Reply S × Deployment S)) (ρ : Randomness) :
    (d.attempt t).value ρ =
      match t.result ρ with
      | .ok (reply, d') => (some (.ok reply), d')
      | .error cause => (some (.error cause), d) := by
  unfold attempt Draw.value Trial.result
  rw [StateT.run_bind]
  rcases StateT.run (ExceptT.run t) ρ with ⟨_ | ⟨_, _⟩, _⟩ <;> rfl

theorem value_withService (h : d.find? name = some (s, pp))
    (f : Service S → PublicParameters S → Draw (Outcome S)) :
    (d.withService name f).value ρ = (f s pp).value ρ := by
  unfold withService
  rw [h]

/-- A call for a service that is not there gives nothing. -/
theorem value_withService_none (h : d.find? name = none)
    (f : Service S → PublicParameters S → Draw (Outcome S)) :
    (d.withService name f).value ρ = (none, d) := by
  unfold withService
  rw [h]
  rfl

theorem call_start (d : Deployment S) (name : String) (c : Configuration) (ρ : Randomness) :
    d.call (.start name c, ρ) =
      match (setup S c.securityBits).result ρ with
      | .ok (pp, msk) => (some (.ok .done),
        put { d with parameters := d.parameters ++ [pp] } name ⟨d.parameters.length, some msk⟩)
      | .error cause => (some (.error cause), d) := by
  unfold call perform
  simp only
  rw [value_attempt, Trial.result_bind_pure]
  unfold start
  rw [Trial.result_bind_pure]
  rcases (setup S c.securityBits).result ρ with _ | ⟨pp, msk⟩
  · rfl
  · simp [Except.map]

theorem call_install (h : d.find? name = some (s, pp)) (msk : MasterKey S) (ρ : Randomness) :
    d.call (.install name msk, ρ) =
      (some ((d.install name s pp msk).1.map fun _ => .done), (d.install name s pp msk).2) :=
  value_withService h _

theorem update_self (h : d.parameters[place]? = some pp) : d.update place pp = d := by
  obtain ⟨hlt, rfl⟩ := List.getElem?_eq_some_iff.mp h
  unfold update
  rw [List.set_getElem_self]

theorem getElem?_update_self (h : d.parameters[place]? = some pp) (pp' : PublicParameters S) :
    (d.update place pp').parameters[place]? = some pp' :=
  List.getElem?_set_self (List.getElem?_eq_some_iff.mp h).1

/-- Registering through a service registers with its parameters. -/
theorem call_register (h : d.find? name = some (s, pp)) (attributeName : String)
    (ρ : Randomness) :
    d.call (.register name attributeName, ρ) =
      (some ((pp.call (attributeName, ρ)).1.map .registered),
        d.update s.parameters (pp.call (attributeName, ρ)).2) := by
  refine (value_withService h _).trans ?_
  rw [value_attempt, Trial.result_bind_pure]
  unfold PublicParameters.call
  rcases (pp.register attributeName).result ρ with cause | ⟨pp', id⟩
  · have hsame : d.update s.parameters pp = d := update_self (find?_eq_some_iff.mp h).2
    simp only [hsame]
    rfl
  · rfl

theorem registered_of_call (h : d.find? name = some (s, pp)) {attributeName : String}
    {id : UInt32} (hcall : (d.call (.register name attributeName, ρ)).1 =
      some (.ok (.registered id))) : (pp.call (attributeName, ρ)).1 = .ok id := by
  rw [call_register h] at hcall
  obtain ⟨id', hid, heq⟩ := exists_of_map_eq_ok (Option.some.inj hcall)
  rw [hid, Reply.registered.inj heq]

/-- A service that is asked changes nothing. -/
theorem call_ask (h : d.find? name = some (s, pp)) (request : Request S) (ρ : Randomness) :
    d.call (.ask name request, ρ) = (some ((s.answer pp request).result ρ), d) := by
  refine (value_withService h _).trans ?_
  rw [value_attempt, Trial.result_bind_pure]
  cases (s.answer pp request).result ρ <;> rfl

/-! ## Effects -/

/-- What one call can do to a deployment. A master key that a service gets belongs to its
parameters. -/
inductive Effect (d : Deployment S) : Deployment S → Prop where
  /-- Nothing. -/
  | unchanged : Effect d d
  /-- Parameters are added, and a service that works with them is placed. -/
  | added (name : String) (pp : PublicParameters S) (key : Option (MasterKey S))
      (accepted : ∀ msk, key = some msk → pp.checkMasterKey msk = .ok ()) :
      Effect d
        (put { d with parameters := d.parameters ++ [pp] } name ⟨d.parameters.length, key⟩)
  /-- A service that works with parameters in use is placed. -/
  | placed (name : String) (s : Service S) (pp : PublicParameters S)
      (parameters : d.parametersOf? s = some pp)
      (accepted : ∀ msk, s.masterKey = some msk → pp.checkMasterKey msk = .ok ()) :
      Effect d (d.put name s)
  /-- The service of a name is removed. -/
  | removed (name : String) : Effect d (d.remove name)
  /-- An attribute is registered, perhaps in vain. -/
  | registered (place : ℕ) (pp : PublicParameters S) (parameters : d.parameters[place]? = some pp)
      (c : String × Randomness) : Effect d (d.update place (pp.call c).2)

section Effects

variable {X₁ X₂ X : Type} [AddCommGroup X₁] [Module Scalar X₁] [AddCommGroup X₂]
  [Module Scalar X₂] [AddCommGroup X] [Module Scalar X]

/-- Without the service that it is for, a call changes nothing. -/
theorem effect_withService {f : Service S → PublicParameters S → Draw (Outcome S)}
    (h : ∀ s pp, d.find? name = some (s, pp) → d.Effect ((d.withService name f).value ρ).2) :
    d.Effect ((d.withService name f).value ρ).2 := by
  cases hfind : d.find? name with
  | none =>
    rw [value_withService_none hfind]
    exact .unchanged
  | some found => exact h _ _ hfind

/-- Every call has one of the effects. -/
theorem effect_call (M : S.Model X₁ X₂ X) (d : Deployment S) (c : Call S × Randomness) :
    d.Effect (d.call c).2 := by
  obtain ⟨c, ρ⟩ := c
  cases c with
  | start name c =>
    rw [call_start]
    cases hsetup : (setup S c.securityBits).result ρ with
    | error cause => exact .unchanged
    | ok made =>
      refine .added name made.1 (some made.2) fun msk hmsk => ?_
      obtain rfl := Option.some.inj hmsk
      obtain ⟨γ, hγ⟩ := M.first.generator
      obtain ⟨k, y, hestablished⟩ := exists_established M hsetup hγ
      exact hestablished.checkMasterKey_eq_ok
  | adopt name pp => exact .added name pp none nofun
  | share name other =>
    refine effect_withService fun s pp hfind => ?_
    rw [value_withService hfind]
    exact .placed name ⟨s.parameters, none⟩ pp (find?_eq_some_iff.mp hfind).2 nofun
  | install name msk =>
    refine effect_withService fun s pp hfind => ?_
    change d.Effect (d.call (.install name msk, ρ)).2
    rw [call_install hfind]
    unfold install
    cases hcheck : pp.checkMasterKey msk with
    | error cause => exact .removed name
    | ok =>
      refine .placed name _ pp (find?_eq_some_iff.mp hfind).2 fun msk' hmsk => ?_
      obtain rfl := Option.some.inj hmsk
      exact hcheck
  | register name attributeName =>
    refine effect_withService fun s pp hfind => ?_
    change d.Effect (d.call (.register name attributeName, ρ)).2
    rw [call_register hfind]
    exact .registered _ pp (find?_eq_some_iff.mp hfind).2 _
  | ask name request =>
    refine effect_withService fun s pp hfind => ?_
    change d.Effect (d.call (.ask name request, ρ)).2
    rw [call_ask hfind]
    exact .unchanged

end Effects

/-! ### What they preserve -/

/-- Parameters stay where they are, and at most grow. -/
theorem Effect.exists_grown (h : d.Effect d') (hpp : d.parameters[place]? = some pp) :
    ∃ pp', d'.parameters[place]? = some pp' ∧ pp.Grows pp' := by
  cases h with
  | unchanged => exact ⟨pp, hpp, .refl pp⟩
  | added name added key accepted =>
    refine ⟨pp, ?_, .refl pp⟩
    exact (List.getElem?_append_left (List.getElem?_eq_some_iff.mp hpp).1).trans hpp
  | placed name s pp' parameters accepted => exact ⟨pp, hpp, .refl pp⟩
  | removed name => exact ⟨pp, hpp, .refl pp⟩
  | registered place' pp' parameters c =>
    by_cases hplace : place' = place
    · subst hplace
      obtain rfl := Option.some.inj (parameters.symm.trans hpp)
      exact ⟨_, getElem?_update_self hpp _, pp'.grows_call c⟩
    · exact ⟨pp, (List.getElem?_set_ne hplace).trans hpp, .refl pp⟩

/-- The service has parameters, and its master key belongs to them. -/
def Keeps (d : Deployment S) (s : Service S) : Prop :=
  ∃ pp, d.parametersOf? s = some pp ∧
    ∀ msk, s.masterKey = some msk → pp.checkMasterKey msk = .ok ()

theorem Effect.keeps (h : d.Effect d') (hs : d.Keeps s) : d'.Keeps s := by
  obtain ⟨pp, hpp, haccepted⟩ := hs
  obtain ⟨pp', hpp', hgrows⟩ := h.exists_grown hpp
  refine ⟨pp', hpp', ?_⟩
  rwa [hgrows.checkMasterKey_eq]

/-- A service that a call places has parameters, and its master key belongs to them. -/
theorem Effect.mem_services (h : d.Effect d') :
    ∀ e ∈ d'.services, e ∈ d.services ∨ d'.Keeps e.2 := by
  intro e he
  cases h with
  | unchanged => exact Or.inl he
  | added name pp key accepted =>
    rcases List.mem_cons.mp he with rfl | he
    · exact Or.inr ⟨pp, List.getElem?_concat_length, accepted⟩
    · exact Or.inl (List.mem_of_mem_filter he)
  | placed name s pp parameters accepted =>
    rcases List.mem_cons.mp he with rfl | he
    · exact Or.inr ⟨pp, parameters, accepted⟩
    · exact Or.inl (List.mem_of_mem_filter he)
  | removed name => exact Or.inl (List.mem_of_mem_filter he)
  | registered place pp parameters c => exact Or.inl he

/-- All services have parameters, and their master keys belong to them. -/
def Sound (d : Deployment S) : Prop :=
  ∀ e ∈ d.services, d.Keeps e.2

theorem Effect.sound (h : d.Effect d') (hd : d.Sound) : d'.Sound := by
  intro e he
  rcases h.mem_services e he with hold | hnew
  · exact h.keeps (hd e hold)
  · exact hnew

theorem Sound.keeps (hd : d.Sound) (hs : d.service? name = some s) : d.Keeps s := by
  obtain ⟨before, after, hservices, -⟩ := List.lookup_eq_some_iff.mp hs
  refine hd (name, s) ?_
  rw [hservices]
  simp

/-! ## Runs -/

section Runs

variable {X₁ X₂ X : Type} [AddCommGroup X₁] [Module Scalar X₁] [AddCommGroup X₂]
  [Module Scalar X₂] [AddCommGroup X] [Module Scalar X] (M : S.Model X₁ X₂ X)

include M

theorem Sound.runCalls :
    ∀ (calls : List (Call S × Randomness)) {d : Deployment S}, d.Sound →
      (AttributeEncryption.runCalls call d calls).2.Sound
  | [], _, hd => hd
  | c :: calls, d, hd => Sound.runCalls calls ((effect_call M d c).sound hd)

theorem exists_grown_runCalls :
    ∀ (calls : List (Call S × Randomness)) {d : Deployment S} {pp : PublicParameters S},
      d.parameters[place]? = some pp →
        ∃ pp', (runCalls call d calls).2.parameters[place]? = some pp' ∧ pp.Grows pp'
  | [], _, pp, hpp => ⟨pp, hpp, .refl pp⟩
  | c :: calls, d, pp, hpp => by
    obtain ⟨pp₁, hpp₁, hgrows₁⟩ := (effect_call M d c).exists_grown hpp
    obtain ⟨pp₂, hpp₂, hgrows₂⟩ := exists_grown_runCalls calls hpp₁
    exact ⟨pp₂, hpp₂, hgrows₁.trans hgrows₂⟩

end Runs

end Deployment

/-! ## Keys -/

namespace PublicParameters

variable {pp : PublicParameters S}

/-- Looking up names does not speak of master keys. -/
theorem lookUpNames_ne (pp : PublicParameters S) (names : List String) (fault : MasterKeyFault) :
    pp.lookUpNames names ≠ .error (.invalidMasterKey fault) := by
  intro h
  obtain ⟨name, -, hname⟩ := exists_of_mapM_eq_error h
  split at hname <;> cases hname

theorem lookUpIds_ne (pp : PublicParameters S) (ids : List UInt32) (fault : MasterKeyFault) :
    pp.lookUpIds ids ≠ .error (.invalidMasterKey fault) := by
  intro h
  obtain ⟨id, -, hid⟩ := exists_of_mapM_eq_error h
  split at hid <;> cases hid

end PublicParameters

namespace Service

variable {s : Service S} {pp : PublicParameters S}

/-- A service whose master key is accepted speaks of a fault of the master key exactly if it has
none, whatever it looks up first. -/
theorem refused_iff (haccepted : ∀ msk, s.masterKey = some msk → pp.checkMasterKey msk = .ok ())
    {lookUp : Except Failure (List (UInt32 × Attribute S.G1))}
    (hlookUp : ∀ fault, lookUp ≠ .error (.invalidMasterKey fault)) (ρ : Randomness) :
    (∃ fault, Trial.result (do
        let msk ← s.requireMasterKey
        let attributes ← lookUp
        pp.issue msk attributes) ρ = .error (.invalidMasterKey fault)) ↔ s.masterKey = none := by
  rw [Trial.result_lift_bind]
  unfold requireMasterKey
  cases hmsk : s.masterKey with
  | none => exact iff_of_true ⟨_, rfl⟩ rfl
  | some msk =>
    refine iff_of_false ?_ nofun
    rintro ⟨fault, hfault⟩
    rw [ok_bind, Trial.result_lift_bind] at hfault
    cases hattributes : lookUp with
    | error cause =>
      rw [hattributes] at hfault
      cases hfault
      exact hlookUp fault hattributes
    | ok attributes =>
      rw [hattributes, ok_bind, PublicParameters.result_issue (haccepted msk hmsk)] at hfault
      split_ifs at hfault
      cases hfault

end Service

/-! ## Attributes -/

namespace PublicParameters

variable {pp : PublicParameters S} {c : String × Randomness} {id : UInt32}

/-- A registered attribute has its name and a random point. -/
theorem mem_entries_of_call (h : (pp.call c).1 = .ok id) :
    (id, ⟨c.1, S.g1.random.value c.2⟩) ∈ (pp.call c).2.registry.attributes.entries := by
  refine (pp.entries_call c).2.mem_iff.mpr (List.mem_append_left _ ?_)
  rw [h]
  simp [newAttributes, Except.toOption]

/-- The id of a registered attribute is new. -/
theorem fresh_of_call (h : (pp.call c).1 = .ok id) : id ∉ pp.registry.attributes.ids := by
  have hids := (pp.entries_call c).2.map Prod.fst
  rw [h] at hids
  exact (List.nodup_cons.mp (hids.nodup_iff.mp (IdMap.nodup_ids _))).1

end PublicParameters

/-! ## Services -/

/-- What a service of a deployment does with its master key. -/
structure Deployment.Serves (d : Deployment S) (name : String) (s : Service S)
    (pp : PublicParameters S) : Prop where
  /-- The master key belongs to the parameters. -/
  accepted : ∀ msk, s.masterKey = some msk → pp.checkMasterKey msk = .ok ()
  /-- A key for names is refused because of the master key exactly if there is none. -/
  issueForNames_iff : ∀ names ρ, (∃ fault, (d.call (.ask name (.issueForNames names), ρ)).1 =
    some (.error (.invalidMasterKey fault))) ↔ s.masterKey = none
  /-- So is a key for ids. -/
  issueForIds_iff : ∀ ids ρ, (∃ fault, (d.call (.ask name (.issueForIds ids), ρ)).1 =
    some (.error (.invalidMasterKey fault))) ↔ s.masterKey = none
  /-- A master key can be installed exactly if it belongs to the parameters. -/
  install_iff : ∀ msk ρ, (d.call (.install name msk, ρ)).1 = some (.ok .done) ↔
    pp.checkMasterKey msk = .ok ()
  /-- It is then there. -/
  installed : ∀ msk ρ, (d.call (.install name msk, ρ)).1 = some (.ok .done) →
    (d.call (.install name msk, ρ)).2.service? name = some { s with masterKey := some msk }

/-- All services that work with the parameters at a place find an attribute by its name and by
its id, and whatever one of them registers has another id. -/
structure Deployment.Shares (d : Deployment S) (place : ℕ) (id : UInt32)
    (a : Attribute S.G1) : Prop where
  /-- By its name. -/
  named?_eq : ∀ name s pp, d.find? name = some (s, pp) → s.parameters = place →
    pp.registry.named? a.name = some (id, a)
  /-- By its name the id. -/
  idOf?_eq : ∀ name s pp, d.find? name = some (s, pp) → s.parameters = place →
    pp.registry.idOf? a.name = some id
  /-- By its id. -/
  attribute?_eq : ∀ name s pp, d.find? name = some (s, pp) → s.parameters = place →
    pp.registry.attribute? id = some a
  /-- Other attributes get other ids. -/
  ne_of_register : ∀ name s pp attributeName ρ id', d.find? name = some (s, pp) →
    s.parameters = place →
    (d.call (.register name attributeName, ρ)).1 = some (.ok (.registered id')) → id' ≠ id

namespace Deployment

variable {d : Deployment S} {name : String} {s : Service S} {pp : PublicParameters S}
  {place : ℕ} {id : UInt32} {a : Attribute S.G1}

/-- A reply is a fault of the master key exactly if issuing gives that fault. -/
theorem exists_fault_iff (t : Trial (PrivateKey S)) (ρ : Randomness) :
    (∃ fault, (some (Trial.result (do
        let sk ← t
        return Reply.issued sk) ρ) : Option (Except Failure (Reply S))) =
      some (.error (.invalidMasterKey fault))) ↔
      ∃ fault, t.result ρ = .error (.invalidMasterKey fault) := by
  rw [Trial.result_bind_pure]
  cases t.result ρ with
  | error cause => simp [Except.map]
  | ok sk => simp [Except.map]

theorem serves (hfind : d.find? name = some (s, pp))
    (haccepted : ∀ msk, s.masterKey = some msk → pp.checkMasterKey msk = .ok ()) :
    d.Serves name s pp where
  accepted := haccepted
  issueForNames_iff names ρ := by
    rw [call_ask hfind]
    exact (exists_fault_iff _ ρ).trans (Service.refused_iff haccepted (pp.lookUpNames_ne names) ρ)
  issueForIds_iff ids ρ := by
    rw [call_ask hfind]
    exact (exists_fault_iff _ ρ).trans (Service.refused_iff haccepted (pp.lookUpIds_ne ids) ρ)
  install_iff msk ρ := by
    rw [call_install hfind]
    unfold install
    cases pp.checkMasterKey msk with
    | error cause => exact iff_of_false nofun nofun
    | ok => exact iff_of_true rfl rfl
  installed msk ρ := by
    rw [call_install hfind]
    unfold install
    cases pp.checkMasterKey msk with
    | error cause => exact nofun
    | ok => exact fun _ => List.lookup_cons_self

/-- Whatever is registered at a place is found there. -/
theorem shares (hpp : d.parameters[place]? = some pp)
    (ha : (id, a) ∈ pp.registry.attributes.entries) : d.Shares place id a := by
  have heq {name : String} {s : Service S} {pp' : PublicParameters S}
      (hfind : d.find? name = some (s, pp')) (hplace : s.parameters = place) : pp' = pp := by
    subst hplace
    exact Option.some.inj ((find?_eq_some_iff.mp hfind).2.symm.trans hpp)
  refine ⟨fun name s pp' hfind hplace => ?_, fun name s pp' hfind hplace => ?_,
    fun name s pp' hfind hplace => ?_,
    fun name s pp' attributeName ρ id' hfind hplace hregister => ?_⟩
  · rw [heq hfind hplace]
    exact Registry.named?_eq_some_iff.mpr ⟨ha, rfl⟩
  · rw [heq hfind hplace]
    exact Registry.idOf?_eq_some_iff.mpr ⟨a, ha, rfl⟩
  · rw [heq hfind hplace]
    exact Registry.attribute?_eq_some_iff.mpr ha
  · rintro rfl
    refine PublicParameters.fresh_of_call (registered_of_call hfind hregister) ?_
    rw [heq hfind hplace]
    exact List.mem_map_of_mem (f := Prod.fst) ha

end Deployment

/-- After every run of calls, every service has parameters. A master key that it holds belongs to
them, so it refuses to issue a key for want of one only, and every key that belongs to them can be
installed. An attribute that it registers is shared from then on, whatever is called later, with
all services on the same parameters. -/
theorem services_keep_keys {X₁ X₂ X : Type} [AddCommGroup X₁] [Module Scalar X₁]
    [AddCommGroup X₂] [Module Scalar X₂] [AddCommGroup X] [Module Scalar X]
    (M : S.Model X₁ X₂ X) (calls : List (Call S × Randomness)) :
    ∃ replies d, runCalls Deployment.call .empty calls = (replies, d) ∧
      ∀ name s, d.service? name = some s → ∃ pp, d.find? name = some (s, pp) ∧
        d.Serves name s pp ∧
        ∀ attributeName ρ id, (d.call (.register name attributeName, ρ)).1 =
          some (.ok (.registered id)) → ∀ later,
            (runCalls Deployment.call (d.call (.register name attributeName, ρ)).2 later).2.Shares
              s.parameters id ⟨attributeName, S.g1.random.value ρ⟩ := by
  refine ⟨_, _, rfl, fun name s hs => ?_⟩
  have hsound : (Deployment.empty : Deployment S).Sound := nofun
  obtain ⟨pp, hpp, haccepted⟩ := (Deployment.Sound.runCalls M calls hsound).keeps hs
  have hfind := Deployment.find?_eq_some_iff.mpr ⟨hs, hpp⟩
  refine ⟨pp, hfind, Deployment.serves hfind haccepted,
    fun attributeName ρ id hregister later => ?_⟩
  have hregistered := Deployment.registered_of_call hfind hregister
  rw [Deployment.call_register hfind]
  obtain ⟨pp', hpp', hgrows⟩ := Deployment.exists_grown_runCalls M later
    (Deployment.getElem?_update_self hpp (pp.call (attributeName, ρ)).2)
  exact Deployment.shares hpp'
    (hgrows.mem_entries _ (PublicParameters.mem_entries_of_call hregistered))

/-- Over the exponents a service is started, and another one shares its parameters. -/
def sharedStart : List (Call exponents × Randomness) :=
  [(.start "owner" .default, .ofWords #[1]), (.share "reader" "owner", .ofWords #[1])]

/-- Of two services the one that was started has a master key and the other one does not, and an
attribute that the second one registers is there for both. -/
theorem reader_shares_attributes :
    ∃ (replies : List (Option (Except Failure (Reply exponents)))) (d d' : Deployment exponents)
      (owner reader : Service exponents) (pp : PublicParameters exponents),
      runCalls Deployment.call .empty sharedStart = (replies, d) ∧
      d.find? "owner" = some (owner, pp) ∧ owner.masterKey ≠ none ∧ d.Serves "owner" owner pp ∧
      d.find? "reader" = some (reader, pp) ∧ reader.masterKey = none ∧
      d.Serves "reader" reader pp ∧
      d' = (d.call (.register "reader" "a", .ofWords #[1])).2 ∧
      d'.Shares owner.parameters 0 ⟨"a", exponentGroup.random.value (.ofWords #[1])⟩ := by
  obtain ⟨replies, d, hd, hservices⟩ := services_keep_keys exponentsModel sharedStart
  -- the place, whether there is a master key, and what registering "a" gives
  let view (found : Service exponents × PublicParameters exponents) :=
    (found.1.parameters, found.1.masterKey.isSome, (found.2.call ("a", .ofWords #[1])).1)
  have hviews : (d.find? "owner").map view = some (0, true, .ok 0) ∧
      (d.find? "reader").map view = some (0, false, .ok 0) := by
    have hlast := congrArg Prod.snd hd
    simp only at hlast
    rw [← hlast]
    decide +kernel
  obtain ⟨⟨⟨owner, pp⟩, hfind, heq⟩, ⟨reader, pp'⟩, hfind', heq'⟩ :=
    hviews.imp Option.map_eq_some_iff.mp Option.map_eq_some_iff.mp
  obtain ⟨hplace, hmsk, -⟩ : owner.parameters = 0 ∧ owner.masterKey.isSome = true ∧
      (pp.call ("a", .ofWords #[1])).1 = .ok 0 := by
    simpa only [view, Prod.mk.injEq] using heq
  obtain ⟨hplace', hmsk', hid⟩ : reader.parameters = 0 ∧ reader.masterKey.isSome = false ∧
      (pp'.call ("a", .ofWords #[1])).1 = .ok 0 := by
    simpa only [view, Prod.mk.injEq] using heq'
  obtain ⟨howner, hpp⟩ := Deployment.find?_eq_some_iff.mp hfind
  obtain ⟨hreader, hpp'⟩ := Deployment.find?_eq_some_iff.mp hfind'
  have hsame : some pp = some pp' := by
    rw [← hpp, ← hpp', Deployment.parametersOf?, Deployment.parametersOf?, hplace, hplace']
  obtain rfl := Option.some.inj hsame
  obtain ⟨_, hfound, hserves, -⟩ := hservices "owner" owner howner
  obtain ⟨_, hfound', hserves', hshares⟩ := hservices "reader" reader hreader
  obtain ⟨-, rfl⟩ := Prod.mk.inj (Option.some.inj (hfind.symm.trans hfound))
  obtain ⟨-, rfl⟩ := Prod.mk.inj (Option.some.inj (hfind'.symm.trans hfound'))
  have hregister : (d.call (.register "reader" "a", .ofWords #[1])).1 =
      some (.ok (.registered 0)) := by
    rw [Deployment.call_register hfind', hid]
    rfl
  refine ⟨replies, d, _, owner, reader, pp, hd, hfind, ?_, hserves, hfind', ?_, hserves', rfl, ?_⟩
  · exact Option.isSome_iff_ne_none.mp hmsk
  · simpa using hmsk'
  · rw [hplace, ← hplace']
    exact hshares "a" _ 0 hregister []

end AttributeEncryption
