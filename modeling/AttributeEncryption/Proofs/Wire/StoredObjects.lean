import AttributeEncryption.Proofs.Scheme.Checks
import AttributeEncryption.Proofs.Scheme.Registrations
import AttributeEncryption.Proofs.Wire.Formats

/-!
# Stored objects come back

Whatever an accepted object is written as is read as this object, and nothing after it is taken
(`Format.RoundTrips`). Objects that were read can be written, so they come back too
(`Format.Restores`). Parameters come back with their registry and so with the next id, wherever
they come from and whatever was registered, and keys and ciphertexts under them with all their
parts (`stored_objects_come_back`).

An input that ends inside an object is reported as too short, and as nothing else
(`cuts_detected`).
-/

open scoped Fin.CommRing

namespace AttributeEncryption

namespace Format

variable {α : Type} {f : Format α}

/-- What an accepted object is written as is read as the object, and what follows is left. -/
def RoundTrips (f : Format α) : Prop :=
  ∀ a bytes rest, f.Accepts a → f.write a = .ok bytes → f.read (bytes ++ rest) = .ok (a, rest)

/-- What was read can be written, and is read again from that. -/
def Restores (f : Format α) : Prop :=
  ∀ a input rest, f.read input = .ok (a, rest) →
    ∃ bytes, f.write a = .ok bytes ∧ ∀ rest', f.read (bytes ++ rest') = .ok (a, rest')

/-- An input that ends inside an accepted object is too short. -/
def DetectsCuts (f : Format α) : Prop :=
  ∀ a bytes part, f.Accepts a → f.write a = .ok bytes → part <+: bytes → part ≠ bytes →
    ∃ shortage, Reader.ofBytes f.read part = .error (.stream (.unexpectedEnd shortage))

theorem Faithful.roundTrips (h : f.Faithful) : f.RoundTrips :=
  fun a bytes rest haccepts hwrite => (h a bytes haccepts hwrite).append rest

theorem Faithful.restores (h : f.Faithful) (hrewrites : f.Rewrites) : f.Restores := by
  intro a input rest hread
  obtain ⟨haccepts, bytes, hwrite⟩ := hrewrites a input rest hread
  exact ⟨bytes, hwrite, (h a bytes haccepts hwrite).append⟩

theorem Faithful.detectsCuts (h : f.Faithful) : f.DetectsCuts := by
  intro a bytes part haccepts hwrite hpart hne
  obtain ⟨_, hread, shortage, rfl⟩ := (h a bytes haccepts hwrite).cut hpart hne
  refine ⟨shortage, ?_⟩
  rw [Reader.ofBytes, hread]
  rfl

end Format

variable {S : Suite}

/-- Where parameters are read, their tables are. -/
theorem Tables.read_eq_ok {pp : PublicParameters S} {input rest : List UInt8}
    (h : PublicParameters.read S input = .ok (pp, rest)) :
    Tables.read S input = .ok (pp.registry.tables, rest) := by
  have hrun : StateT.run (PublicParameters.read S) input = .ok (pp, rest) := h
  rw [Tables.read_eq]
  change StateT.run (_ <$> PublicParameters.read S) input = _
  rw [StateT.run_map, hrun]
  rfl

/-! ## Round trips -/

/-- Wherever parameters come from and whatever is registered, what they are written as is read
as these parameters, and with the tables that the registrations left, the next id among them.
Master keys and private keys that pass the check under them and headers that do come back as
well. What was read, from whatever bytes, can be written and comes back. Ciphertexts that are
made pass the check, and so do keys that are issued if the points that they are made from stand
for elements of the groups. -/
theorem stored_objects_come_back (hS : S.Encodes) {origin : Origin} {pp₀ : PublicParameters S}
    (h : origin.parameters S = .ok pp₀) (calls : List (String × Randomness)) :
    ∃ t₀ results pp t, origin.tables S = .ok t₀ ∧
      runCalls PublicParameters.call pp₀ calls = (results, pp) ∧
      runCalls (Tables.call S.g1) t₀ calls = (results, t) ∧
      (∀ bytes rest, pp.write = .ok bytes →
        PublicParameters.read S (bytes ++ rest) = .ok (pp, rest) ∧
          Tables.read S (bytes ++ rest) = .ok (t, rest)) ∧
      (MasterKey.format pp).RoundTrips ∧ (PrivateKey.format pp).RoundTrips ∧
      (Ciphertext.format pp).RoundTrips ∧ (PublicParameters.format S).Restores ∧
      (MasterKey.format pp).Restores ∧ (PrivateKey.format pp).Restores ∧
      (Ciphertext.format pp).Restores ∧
      (∀ (matrix : ShareMatrix) (data : List UInt8) (ρ : Randomness) (ct : Ciphertext S),
        (pp.encrypt matrix data).result ρ = .ok ct ∨ (pp.wrap matrix data).result ρ = .ok ct →
          (Ciphertext.format pp).Accepts ct) ∧
      ∀ (X₁ X₂ X : Type) [AddCommGroup X₁] [Module Scalar X₁] [AddCommGroup X₂]
        [Module Scalar X₂] [AddCommGroup X] [Module Scalar X] (M : S.Model X₁ X₂ X)
        (msk : MasterKey S) (ρ : Randomness) (sk : PrivateKey S), M.Places pp msk →
        ((∃ names, (pp.issueForNames msk names).result ρ = .ok sk) ∨
          ∃ ids, (pp.issueForIds msk ids).result ρ = .ok sk) →
        (PrivateKey.format pp).Accepts sk := by
  have htables : origin.tables S = .ok pp₀.registry.tables := by
    rw [Origin.tables_eq, h]
    rfl
  have hrun := runCalls_view (fun pp : PublicParameters S => pp.registry.tables)
    Tables.call_tables pp₀ calls
  rcases hcalls : runCalls PublicParameters.call pp₀ calls with ⟨results, pp⟩
  rw [hcalls] at hrun
  have hparameters := PublicParameters.faithful_format hS
  have hmaster := MasterKey.faithful_format hS pp
  have hprivate := PrivateKey.faithful_format hS pp
  have hciphertext := Ciphertext.faithful_format hS pp
  refine ⟨_, results, pp, _, htables, rfl, hrun, fun bytes rest hwrite => ?_, hmaster.roundTrips,
    hprivate.roundTrips, hciphertext.roundTrips,
    hparameters.restores (PublicParameters.rewrites_format hS),
    hmaster.restores (MasterKey.rewrites_format hS pp),
    hprivate.restores (PrivateKey.rewrites_format hS pp),
    hciphertext.restores (Ciphertext.rewrites_format hS pp), fun matrix data ρ ct hmade => ?_,
    fun X₁ X₂ X _ _ _ _ _ _ M msk ρ sk hplaces hmade =>
      PublicParameters.checkPrivateKey_of_issueFor hplaces hmade⟩
  · have hread := hparameters.roundTrips pp bytes rest trivial hwrite
    exact ⟨hread, Tables.read_eq_ok hread⟩
  · exact hmade.elim PublicParameters.checkHeader_of_encrypt PublicParameters.checkHeader_of_wrap

/-- Parameters whose attributes were not stored by ascending id, with one more attribute that
takes the greatest id. -/
theorem sparse_parameters_come_back :
    ∃ (pp₀ pp : PublicParameters exponents) (t : Tables Scalar) (bytes : List UInt8),
      (Origin.stored sparseParameters).parameters exponents = .ok pp₀ ∧
      runCalls PublicParameters.call pp₀ [("c", .ofWords #[1])] = ([.ok 0xFFFFFFFF], pp) ∧
      pp.write = .ok bytes ∧
      PublicParameters.read exponents (bytes ++ [7]) = .ok (pp, [7]) ∧
      Tables.read exponents (bytes ++ [7]) = .ok (t, [7]) ∧
      (PrivateKey.format pp).RoundTrips ∧ (Ciphertext.format pp).Restores := by
  have hresults : ((Origin.stored sparseParameters).parameters exponents).map (fun pp₀ =>
      let (results, pp) := runCalls PublicParameters.call pp₀ [("c", .ofWords #[1])]
      (results, pp.write.toOption.isSome)) = .ok ([.ok 0xFFFFFFFF], true) := by
    decide +kernel
  obtain ⟨pp₀, hpp₀, heq⟩ := exists_of_map_eq_ok hresults
  obtain ⟨t₀, results, pp, t, -, hrun, -, hread, -, hprivate, -, -, -, -, hciphertext, -⟩ :=
    stored_objects_come_back encodes_exponents hpp₀ [("c", .ofWords #[1])]
  simp only [hrun, Prod.mk.injEq] at heq
  obtain ⟨rfl, hsome⟩ := heq
  cases hwrite : pp.write with
  | error cause =>
    rw [hwrite] at hsome
    cases hsome
  | ok bytes =>
    obtain ⟨hpp, ht⟩ := hread bytes [7] hwrite
    exact ⟨pp₀, pp, t, bytes, hpp₀, hrun, hwrite, hpp, ht, hprivate, hciphertext⟩

/-! ## Cuts -/

/-- An input that ends inside a matrix, parameters, or a key or ciphertext that passes the check
is reported as too short : neither is it read as another object, nor is any other fault found
in it first. -/
theorem cuts_detected (hS : S.Encodes) :
    ShareMatrix.format.DetectsCuts ∧ (PublicParameters.format S).DetectsCuts ∧
      ∀ pp : PublicParameters S, (MasterKey.format pp).DetectsCuts ∧
        (PrivateKey.format pp).DetectsCuts ∧ (Ciphertext.format pp).DetectsCuts :=
  ⟨ShareMatrix.faithful_format.detectsCuts, (PublicParameters.faithful_format hS).detectsCuts,
    fun pp => ⟨(MasterKey.faithful_format hS pp).detectsCuts,
      (PrivateKey.faithful_format hS pp).detectsCuts,
      (Ciphertext.faithful_format hS pp).detectsCuts⟩⟩

/-- The master key of the generator under parameters for it, cut anywhere. -/
theorem cut_master_key_detected :
    ∃ (pp : PublicParameters bn254) (msk : MasterKey bn254) (bytes : List UInt8),
      pp.checkMasterKey msk = .ok () ∧ msk.write = .ok bytes ∧
      ∀ part, part <+: bytes → part ≠ bytes → ∃ shortage,
        Reader.ofBytes (MasterKey.read pp) part = .error (.stream (.unexpectedEnd shortage)) := by
  let msk : MasterKey bn254 := ⟨bn254.g1.generator⟩
  let pp : PublicParameters bn254 :=
    { level := ⟨128, by decide, by decide⟩, g1 := bn254.g1.generator, g2 := bn254.g2.generator
      g1a := bn254.g1.generator
      blinding := bn254.pair bn254.g1.generator bn254.g2.generator
      registry := .empty }
  have hcheck : pp.checkMasterKey msk = .ok () := if_pos rfl
  have hwidth : (bn254.g1.codec.encode msk.point).length < 2 ^ 32 := by
    rw [encodes_bn254.g1.length_encode]
    decide
  obtain ⟨bytes, hwrite⟩ : ∃ bytes, msk.write = .ok bytes :=
    Frame.exists_sequence_cons exists_tag (Frame.exists_sequence_cons
      ⟨_, Frame.bytes_eq_ok.mpr ⟨hwidth, rfl⟩⟩ Frame.exists_sequence_nil)
  exact ⟨pp, msk, bytes, hcheck, hwrite, fun part hpart hne =>
    ((cuts_detected encodes_bn254).2.2 pp).1 msk bytes part hcheck hwrite hpart hne⟩

end AttributeEncryption
