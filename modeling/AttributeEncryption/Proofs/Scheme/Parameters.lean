import AttributeEncryption.Proofs.GroupOrder
import AttributeEncryption.Proofs.Results
import AttributeEncryption.Proofs.Runs
import AttributeEncryption.Proofs.Scheme.Attributes
import AttributeEncryption.Proofs.Scheme.Groups

/-!
# Parameters

In a model of the groups, parameters belong to two secrets `α` and `a` (`Established`). `setup`
establishes parameters for every security level and all random words (`exists_setup`), and
registering attributes keeps them established (`Established.registrations`). It changes
nothing but the registry, whose attributes stay (`Registrations.mem_entries`).

Keys and ciphertexts are told apart by powers of `e(g₁, g₂)` (`PublicParameters.power`), if its
order is full (`Established.power_injective`).
-/

open scoped Fin.CommRing

namespace AttributeEncryption

variable {S : Suite} {X₁ X₂ X : Type} [AddCommGroup X₁] [Module Scalar X₁] [AddCommGroup X₂]
  [Module Scalar X₂] [AddCommGroup X] [Module Scalar X] {M : S.Model X₁ X₂ X}
  {x : X₁} {y : X₂} {α a : Scalar} {pp pp' : PublicParameters S} {msk : MasterKey S}

/-! ## Parameters -/

/-- The parameters are those of the generators `x` and `y` and the secrets `α` and `a`, and
the master key belongs to them. -/
structure Established (M : S.Model X₁ X₂ X) (x : X₁) (y : X₂) (α a : Scalar)
    (pp : PublicParameters S) (msk : MasterKey S) : Prop where
  g1 : M.first.stands pp.g1 x
  g2 : M.second.stands pp.g2 y
  g1a : M.first.stands pp.g1a (a • x)
  blinding : pp.blinding = M.values.value (α • M.e x y)
  master : M.first.stands msk.point (α • x)
  attributes : ∀ {id : UInt32} {b : Attribute S.G1}, (id, b) ∈ pp.registry.attributes.entries →
    ∃ h, M.first.stands b.point h

theorem SecurityLevel.exists_ofBits? {bits : UInt32} (hpos : 1 ≤ bits)
    (hle : bits ≤ greatestSecurityBits) : ∃ level, ofBits? bits = some level := by
  have hlt : 0 < bits := by
    rw [UInt32.lt_iff_toNat_lt]
    exact UInt32.le_iff_toNat_le.mp hpos
  exact ⟨_, dif_pos ⟨hlt, hle⟩⟩

/-- A random point is a multiple of the generator. -/
theorem run_random {P : Type} (g : PointGroup P) (ρ : Randomness) :
    ∃ k ρ', StateT.run g.random ρ = (g.multiple g.generator k, ρ') := by
  obtain ⟨k, ρ', hk⟩ := Randomness.exists_run Randomness.pointScalar ρ
  refine ⟨k, ρ', ?_⟩
  unfold PointGroup.random
  rw [StateT.run_bind, hk]
  rfl

/-- The parameters and the master key for drawn generators and secrets. -/
def setupWith (level : SecurityLevel) (g1 : S.G1) (g2 : S.G2) (α a : Scalar) :
    PublicParameters S × MasterKey S :=
  ({ level, g1, g2
     g1a := S.g1.multiple g1 a
     blinding := S.gt.pow (S.pair g1 g2) α
     registry := .empty }, ⟨S.g1.multiple g1 α⟩)

theorem established_setupWith (level : SecurityLevel) {g1 : S.G1} {g2 : S.G2}
    (hx : M.first.stands g1 x) (hy : M.second.stands g2 y) (α a : Scalar) :
    Established M x y α a (setupWith level g1 g2 α a).1 (setupWith level g1 g2 α a).2 where
  g1 := hx
  g2 := hy
  g1a := M.first.stands_multiple hx a
  blinding := by
    rw [setupWith, M.pair hx hy, M.values.pow_value]
  master := M.first.stands_multiple hx α
  attributes hb := by simp [setupWith, Registry.empty, IdMap.empty] at hb

/-- The secrets `α` and `a` of a setup are drawn after the two generators. -/
def setupSecrets (S : Suite) : Draw (Scalar × Scalar) := do
  let _ ← S.g1.random
  let _ ← S.g2.random
  let α ← Randomness.scalar
  let a ← Randomness.scalar
  return (α, a)

/-- What a setup gives for a security level. -/
theorem gives_setup {bits : UInt32} {level : SecurityLevel}
    (hlevel : SecurityLevel.ofBits? bits = some level) (ρ : Randomness) :
    ∃ k₁ k₂ ρ', (setup S bits).Gives ρ (setupWith level (S.g1.multiple S.g1.generator k₁)
      (S.g2.multiple S.g2.generator k₂) ((setupSecrets S).value ρ).1
      ((setupSecrets S).value ρ).2) ρ' := by
  obtain ⟨k₁, ρ₁, hk₁⟩ := run_random S.g1 ρ
  obtain ⟨k₂, ρ₂, hk₂⟩ := run_random S.g2 ρ₁
  obtain ⟨α, ρ₃, hα⟩ := Randomness.exists_run Randomness.scalar ρ₂
  obtain ⟨a, ρ₄, ha⟩ := Randomness.exists_run Randomness.scalar ρ₃
  have hsecrets : (setupSecrets S).value ρ = (α, a) := by
    refine @Draw.value_eq _ _ _ ρ₄ _ ?_
    unfold setupSecrets
    rw [Draw.run_bind hk₁, Draw.run_bind hk₂, Draw.run_bind hα, Draw.run_bind ha]
    rfl
  refine ⟨k₁, k₂, ρ₄, ?_⟩
  rw [hsecrets]
  unfold setup
  rw [hlevel]
  exact .bind (.draw hk₁) (.bind (.draw hk₂) (.bind (.draw hα) (.bind (.draw ha) (.pure _ _))))

/-- The setup succeeds for every security level, whatever is drawn. -/
theorem exists_setup (M : S.Model X₁ X₂ X) {bits : UInt32} (hpos : 1 ≤ bits)
    (hle : bits ≤ greatestSecurityBits) (ρ : Randomness) :
    ∃ pp msk, (setup S bits).result ρ = .ok (pp, msk) ∧
      ∃ x y α a, Established M x y α a pp msk := by
  obtain ⟨level, hlevel⟩ := SecurityLevel.exists_ofBits? hpos hle
  obtain ⟨k₁, k₂, ρ', hrun⟩ := @gives_setup S bits level hlevel ρ
  obtain ⟨x, hx⟩ := M.first.exists_stands_multiple k₁
  obtain ⟨y, hy⟩ := M.second.exists_stands_multiple k₂
  exact ⟨_, _, hrun.result_eq, x, y, _, _, established_setupWith level hx hy _ _⟩

/-- What a successful setup gave. -/
theorem exists_setupWith {bits : UInt32} {ρ : Randomness}
    (h : (setup S bits).result ρ = .ok (pp, msk)) :
    ∃ level k₁ k₂, (pp, msk) = setupWith level (S.g1.multiple S.g1.generator k₁)
      (S.g2.multiple S.g2.generator k₂) ((setupSecrets S).value ρ).1
      ((setupSecrets S).value ρ).2 := by
  cases hlevel : SecurityLevel.ofBits? bits with
  | none =>
    unfold setup at h
    rw [hlevel] at h
    cases h
  | some level =>
    obtain ⟨k₁, k₂, ρ', hrun⟩ := @gives_setup S bits level hlevel ρ
    exact ⟨level, k₁, k₂, hrun.eq_of_result_eq h⟩

/-- In a model, the parameters of a setup are those of the secrets that it drew, and `g₁` is
a multiple of the generator. -/
theorem exists_established (M : S.Model X₁ X₂ X) {bits : UInt32} {ρ : Randomness}
    (h : (setup S bits).result ρ = .ok (pp, msk)) {γ : X₁}
    (hγ : M.first.stands S.g1.generator γ) :
    ∃ (k : Scalar) (y : X₂), Established M (k • γ) y ((setupSecrets S).value ρ).1
      ((setupSecrets S).value ρ).2 pp msk := by
  obtain ⟨level, k₁, k₂, heq⟩ := exists_setupWith h
  obtain ⟨rfl, rfl⟩ := Prod.mk.inj heq
  obtain ⟨y, hy⟩ := M.second.exists_stands_multiple k₂
  exact ⟨k₁, y, established_setupWith level (M.first.stands_multiple hγ k₁) hy _ _⟩

/-- The setup registers nothing. -/
theorem registry_of_setup {bits : UInt32} {ρ : Randomness}
    (h : (setup S bits).result ρ = .ok (pp, msk)) : pp.registry = .empty := by
  obtain ⟨level, k₁, k₂, heq⟩ := exists_setupWith h
  obtain ⟨rfl, rfl⟩ := Prod.mk.inj heq
  rfl

/-! ## Registrations -/

/-- A random point is the multiple of the generator with a drawn scalar. -/
theorem value_random {P : Type} (g : PointGroup P) (ρ : Randomness) :
    g.random.value ρ = g.multiple g.generator (Randomness.pointScalar.value ρ) := by
  obtain ⟨k, ρ', hk⟩ := Randomness.exists_run Randomness.pointScalar ρ
  rw [Draw.value_eq hk]
  refine @Draw.value_eq _ _ _ ρ' _ ?_
  unfold PointGroup.random
  rw [Draw.run_bind hk]
  rfl

/-- Registering inserts the name with a random point under the next id. -/
theorem result_register (pp : PublicParameters S) (name : String) (ρ : Randomness) :
    (pp.register name).result ρ =
      if name.isEmpty then .error (.invalidAttribute .emptyName)
      else (pp.registry.insert pp.registry.nextId ⟨name, S.g1.random.value ρ⟩).map
        fun registry => ({ pp with registry }, pp.registry.nextId) := by
  obtain ⟨point, ρ', hpoint⟩ := Randomness.exists_run S.g1.random ρ
  rw [Draw.value_eq hpoint]
  unfold PublicParameters.register
  split_ifs with hname
  · rfl
  · have hdraw : (liftM S.g1.random : Trial S.G1).Gives ρ point ρ' := .draw hpoint
    unfold Trial.result
    rw [hdraw.run_bind]
    dsimp only
    cases pp.registry.insert pp.registry.nextId ⟨name, point⟩ <;> rfl

/-- A new name is registered under the next id with a random point, unless the ids are
exhausted. -/
theorem exists_result_register (pp : PublicParameters S) {name : String}
    (hname : name.isEmpty = false) (hnew : name ∉ namesOf pp.registry.attributes.entries)
    (hid : pp.registry.attributes.contains pp.registry.nextId = false) (ρ : Randomness) :
    ∃ pp', (pp.register name).result ρ = .ok (pp', pp.registry.nextId) ∧
      pp'.registry.attributes =
        pp.registry.attributes.insert pp.registry.nextId ⟨name, S.g1.random.value ρ⟩ := by
  refine ⟨{ pp with registry := ⟨_, nodup_namesOf_insertEntry pp.registry.names_nodup hnew⟩ },
    ?_, rfl⟩
  rw [result_register, hname, Registry.insert, dif_neg hnew, hid]
  rfl

theorem exists_register (pp : PublicParameters S) {name : String} (hname : name.isEmpty = false)
    (hnew : name ∉ namesOf pp.registry.attributes.entries)
    (hid : pp.registry.attributes.contains pp.registry.nextId = false) (ρ : Randomness) :
    ∃ pp' point, (pp.register name).result ρ = .ok (pp', pp.registry.nextId) ∧
      pp'.registry.attributes =
        pp.registry.attributes.insert pp.registry.nextId ⟨name, point⟩ := by
  obtain ⟨pp', hregister, hattributes⟩ := exists_result_register pp hname hnew hid ρ
  exact ⟨pp', _, hregister, hattributes⟩

/-- Two names registered after a setup have the ids 0 and 1. -/
theorem exists_register_pair (hregistry : pp.registry = .empty) {name name' : String}
    (hname : name.isEmpty = false) (hname' : name'.isEmpty = false) (hne : name' ≠ name)
    (ρ ρ' : Randomness) :
    ∃ pp₁ pp₂, (pp.register name).result ρ = .ok (pp₁, 0) ∧
      (pp₁.register name').result ρ' = .ok (pp₂, 1) ∧
      pp₂.registry.attributes.entries =
        [(0, ⟨name, S.g1.random.value ρ⟩), (1, ⟨name', S.g1.random.value ρ'⟩)] := by
  obtain ⟨pp₁, hfirst, hentries₁⟩ := exists_result_register pp hname
    (by rw [hregistry]; simp [namesOf, Registry.empty, IdMap.empty]) (by rw [hregistry]; rfl) ρ
  rw [hregistry] at hfirst hentries₁
  have hnext : pp₁.registry.nextId = 1 := by
    unfold Registry.nextId
    rw [hentries₁]
    rfl
  obtain ⟨pp₂, hsecond, hentries₂⟩ := exists_result_register pp₁ hname'
    (by
      rw [hentries₁]
      simpa [namesOf, Registry.empty, IdMap.empty, IdMap.insert, IdMap.insertEntry] using hne)
    (by rw [hnext, hentries₁]; rfl) ρ'
  rw [hnext] at hsecond hentries₂
  refine ⟨pp₁, pp₂, hfirst, hsecond, ?_⟩
  rw [hentries₂, hentries₁]
  rfl

/-- What one successful registration does to the parameters. -/
theorem registry_of_register {name : String} {id : UInt32} {ρ : Randomness}
    (h : (pp.register name).result ρ = .ok (pp', id)) :
    ∃ k registry, pp.registry.insert id ⟨name, S.g1.multiple S.g1.generator k⟩ = .ok registry ∧
      pp' = { pp with registry } := by
  rw [result_register, value_random] at h
  split_ifs at h
  obtain ⟨registry, hinsert, heq⟩ := exists_of_map_eq_ok h
  obtain ⟨rfl, rfl⟩ := Prod.mk.inj heq
  exact ⟨_, registry, hinsert, rfl⟩

/-- Parameters that successful registrations lead to. -/
inductive Registrations : PublicParameters S → PublicParameters S → Prop where
  /-- No registration. -/
  | refl (pp : PublicParameters S) : Registrations pp pp
  /-- One more registration. -/
  | step {pp pp' pp'' : PublicParameters S} {name : String} {id : UInt32} {ρ : Randomness}
      (before : Registrations pp pp') (registers : (pp'.register name).result ρ = .ok (pp'', id)) :
      Registrations pp pp''

theorem Established.register (h : Established M x y α a pp msk) {name : String} {id : UInt32}
    {ρ : Randomness} (hregister : (pp.register name).result ρ = .ok (pp', id)) :
    Established M x y α a pp' msk := by
  obtain ⟨k, registry, hinsert, rfl⟩ := registry_of_register hregister
  refine ⟨h.g1, h.g2, h.g1a, h.blinding, h.master, fun hb => ?_⟩
  rcases Registry.mem_of_insert hinsert hb with heq | hb
  · obtain ⟨rfl, rfl⟩ := Prod.mk.inj heq
    exact M.first.exists_stands_multiple k
  · exact h.attributes hb

/-- Registrations keep parameters established. -/
theorem Established.registrations (hpp : Registrations pp pp')
    (h : Established M x y α a pp msk) : Established M x y α a pp' msk := by
  induction hpp with
  | refl => exact h
  | step _ hregister ih => exact ih.register hregister

/-- The points of registered attributes are multiples of the generator. -/
theorem Registrations.exists_point_eq {pp₀ : PublicParameters S} {bits : UInt32} {ρ : Randomness}
    (hpp : Registrations pp₀ pp) (hsetup : (setup S bits).result ρ = .ok (pp₀, msk)) :
    ∀ b ∈ pp.registry.attributes.entries, ∃ κ, b.2.point = S.g1.multiple S.g1.generator κ := by
  induction hpp with
  | refl =>
    rw [registry_of_setup hsetup]
    simp [Registry.empty, IdMap.empty]
  | step _ hregister ih =>
    obtain ⟨κ, registry, hinsert, rfl⟩ := registry_of_register hregister
    intro b hb
    rcases Registry.mem_of_insert hinsert hb with rfl | hb
    · exact ⟨κ, rfl⟩
    · exact ih b hb

/-- In a model registered attributes are multiples of the generator. -/
theorem Registrations.exists_stands_smul {pp₀ : PublicParameters S} {bits : UInt32}
    {ρ : Randomness} (hpp : Registrations pp₀ pp)
    (hsetup : (setup S bits).result ρ = .ok (pp₀, msk))
    {γ : X₁} (hγ : M.first.stands S.g1.generator γ) :
    ∃ κ : UInt32 → Scalar, ∀ id b, pp.registry.attribute? id = some b →
      M.first.stands b.point (κ id • γ) := by
  have hpoint (id : UInt32) : ∃ κ : Scalar, ∀ b, pp.registry.attribute? id = some b →
      M.first.stands b.point (κ • γ) := by
    cases hb : pp.registry.attribute? id with
    | none => exact ⟨0, fun b hb => by cases hb⟩
    | some b =>
      obtain ⟨κ, hκ⟩ := hpp.exists_point_eq hsetup _ (Registry.attribute?_eq_some_iff.mp hb)
      refine ⟨κ, fun b' hb' => ?_⟩
      obtain rfl := Option.some.inj hb'
      have hstands := M.first.stands_multiple hγ κ
      rwa [← hκ] at hstands
  choose κ hκ using hpoint
  exact ⟨κ, hκ⟩

/-- Attributes stay registered. -/
theorem Registrations.mem_entries (hpp : Registrations pp pp') :
    ∀ e ∈ pp.registry.attributes.entries, e ∈ pp'.registry.attributes.entries := by
  induction hpp with
  | refl => exact fun e he => he
  | step _ hregister ih =>
    obtain ⟨k, registry, hinsert, rfl⟩ := registry_of_register hregister
    exact fun e he => Registry.mem_insert_of_mem hinsert (ih e he)

/-! ## Powers -/

/-- A power of `e(g₁, g₂)`. -/
def PublicParameters.power (pp : PublicParameters S) (k : Scalar) : S.Gt :=
  S.gt.pow (S.pair pp.g1 pp.g2) k

theorem Established.power_eq (h : Established M x y α a pp msk) (k : Scalar) :
    pp.power k = M.values.value (k • M.e x y) := by
  rw [PublicParameters.power, M.pair h.g1 h.g2, M.values.pow_value]

/-- The power that blinds a secret. -/
theorem Established.blinding_pow (h : Established M x y α a pp msk) (secret : Scalar) :
    S.gt.pow pp.blinding secret = pp.power (α * secret) := by
  rw [h.blinding, M.values.pow_value, h.power_eq, smul_smul, mul_comm]

theorem Registrations.power_eq (hpp : Registrations pp pp') : pp'.power = pp.power := by
  induction hpp with
  | refl => rfl
  | step _ hregister ih =>
    obtain ⟨k, registry, -, rfl⟩ := registry_of_register hregister
    exact ih

/-- The order of `e(g₁, g₂)` is the group order : no power of it is neutral but that for 0. -/
def PublicParameters.FullOrder (pp : PublicParameters S) : Prop :=
  ∀ k, pp.power k = S.gt.one → k = 0

theorem Established.power_injective (h : Established M x y α a pp msk) (hfull : pp.FullOrder) :
    Function.Injective pp.power := by
  intro k l hkl
  rw [h.power_eq, h.power_eq] at hkl
  refine sub_eq_zero.mp (hfull _ ?_)
  rw [h.power_eq, sub_smul]
  exact M.values.value_sub_eq_one hkl

/-- In the exponents the order is full unless a generator is neutral. -/
theorem fullOrder_of_pair_ne_one {pp : PublicParameters exponents}
    (h : exponents.pair pp.g1 pp.g2 ≠ exponents.gt.one) : pp.FullOrder := by
  intro k hk
  obtain ⟨e, he⟩ : ∃ e : Scalar, exponents.pair pp.g1 pp.g2 = e := ⟨_, rfl⟩
  have hpower : pp.power k = k * e := by
    unfold PublicParameters.power
    rw [he]
    exact exponentsModel.values.pow_value e k
  rw [he] at h
  exact (mul_eq_zero.mp (hpower.symm.trans hk)).resolve_right h

/-- Two names are registered in the exponents, whose order is full. -/
theorem exists_exponents_pair :
    ∃ pp₀ msk pp, (setup exponents 128).result (.ofWords #[1]) = .ok (pp₀, msk) ∧
      Registrations pp₀ pp ∧ pp.FullOrder ∧ pp.registry.attributes.entries =
        [(0, ⟨"a", exponentGroup.random.value (.ofWords #[1])⟩),
          (1, ⟨"b", exponentGroup.random.value (.ofWords #[1])⟩)] := by
  obtain ⟨pp₀, msk, hsetup, -⟩ :=
    exists_setup exponentsModel (by decide : (1 : UInt32) ≤ 128) (by decide) (.ofWords #[1])
  obtain ⟨pp₁, pp, hfirst, hsecond, hentries⟩ :=
    exists_register_pair (registry_of_setup hsetup) (by decide : "a".isEmpty = false)
      (by decide : "b".isEmpty = false) (by decide) (.ofWords #[1]) (.ofWords #[1])
  have hpp : Registrations pp₀ pp := .step (.step (.refl pp₀) hfirst) hsecond
  have hne : ((setup exponents 128).result (.ofWords #[1])).toOption.map
      (fun p => exponents.pair p.1.g1 p.1.g2) ≠ some exponents.gt.one := by decide +kernel
  rw [hsetup] at hne
  have hfull : pp₀.FullOrder := fullOrder_of_pair_ne_one fun h => hne (congrArg some h)
  refine ⟨pp₀, msk, pp, hsetup, hpp, fun k hk => hfull k ?_, hentries⟩
  rwa [hpp.power_eq] at hk

end AttributeEncryption
