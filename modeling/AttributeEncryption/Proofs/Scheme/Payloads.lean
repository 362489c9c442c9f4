import AttributeEncryption.Proofs.Runs
import AttributeEncryption.Scheme.Payload

/-!
# Payloads under one multiplier

Data that was masked with a multiplier is unmasked with it (`Suite.mask_mask`), and data that
was wrapped under it is unwrapped under it, whatever nonce was drawn
(`Suite.exists_wrap`). So a ciphertext is decrypted as soon as its multiplier is recovered
(`PublicParameters.decrypt_eq_ok`, `PublicParameters.exists_wrap`).
-/

namespace AttributeEncryption

/-- Encryption succeeds for data within the length limit. -/
theorem Gcm.exists_encrypt (key nonce : List UInt8) {data : List UInt8}
    (h : data.length ≤ greatestLength) :
    ∃ payload, encrypt key nonce data = .ok payload ∧
      payload.length = data.length + tagLength := by
  refine ⟨_, if_neg (Nat.not_lt.mpr h), ?_⟩
  rw [List.length_append, length_addStream (length_keystream _ _ _), length_tag]

variable {S : Suite}

namespace Suite

theorem length_mask (S : Suite) (multiplier : S.Gt) (data : List UInt8) :
    (S.mask multiplier data).length = data.length :=
  Gcm.length_addStream (Keccak.length_keystream _ _ _)

/-- Masking twice with the same value changes nothing. -/
theorem mask_mask (S : Suite) (multiplier : S.Gt) (data : List UInt8) :
    S.mask multiplier (S.mask multiplier data) = data := by
  have hlength : (Keccak.keystream maskDomain (S.gt.codec.encode multiplier) data.length).length =
      data.length := Keccak.length_keystream _ _ _
  have hmasked := S.length_mask multiplier data
  have htwice := Gcm.addStream_addStream hlength
  unfold mask at hmasked ⊢
  rw [hmasked]
  exact htwice

/-- Data within the length limit is wrapped, whatever nonce is drawn, and unwrapping gives it
back. -/
theorem exists_wrap (S : Suite) (multiplier : S.Gt) {data : List UInt8}
    (h : data.length ≤ Gcm.greatestLength) (ρ : Randomness) :
    ∃ content ρ', (S.wrap multiplier data).Gives ρ content ρ' ∧
      S.unwrap multiplier content = .ok data := by
  obtain ⟨nonce, ρ', hnonce, hrun⟩ := Randomness.run_bytes Gcm.nonceLength ρ
  obtain ⟨payload, hpayload, hlength⟩ := Gcm.exists_encrypt (S.wrapKey multiplier) nonce h
  refine ⟨nonce ++ payload, ρ', .bind (.draw hrun) (.bind (.lift hpayload ρ') (.pure _ _)), ?_⟩
  unfold unwrap
  rw [if_neg (by rw [List.length_append]; omega), List.take_left' hnonce, List.drop_left' hnonce]
  exact Gcm.decrypt_encrypt hpayload

end Suite

namespace PublicParameters

variable {pp : PublicParameters S} {matrix : ShareMatrix} {header : Header S} {multiplier : S.Gt}
  {sk : PrivateKey S} {ρ ρ' : Randomness}

theorem gives_encrypt (h : (pp.encapsulate matrix).Gives ρ (header, multiplier) ρ')
    (data : List UInt8) :
    (pp.encrypt matrix data).Gives ρ ⟨header, S.mask multiplier data⟩ ρ' :=
  .bind h (.pure _ _)

/-- Decrypting masks with whatever value is recovered. -/
theorem decrypt_eq_mask (h : pp.recover header sk = .ok multiplier) (content : List UInt8) :
    pp.decrypt ⟨header, content⟩ sk = .ok (S.mask multiplier content) := by
  unfold decrypt
  rw [h]
  rfl

/-- A key that recovers the multiplier decrypts. -/
theorem decrypt_eq_ok (h : pp.recover header sk = .ok multiplier) (data : List UInt8) :
    pp.decrypt ⟨header, S.mask multiplier data⟩ sk = .ok data := by
  rw [decrypt_eq_mask h, S.mask_mask]

/-- A key that recovers the multiplier unwraps what was wrapped under it. -/
theorem exists_wrap (hheader : (pp.encapsulate matrix).Gives ρ (header, multiplier) ρ')
    (hrecover : pp.recover header sk = .ok multiplier) {data : List UInt8}
    (hdata : data.length ≤ Gcm.greatestLength) :
    ∃ ct ρ'', (pp.wrap matrix data).Gives ρ ct ρ'' ∧ pp.unwrap ct sk = .ok data := by
  obtain ⟨content, ρ'', hcontent, hunwrap⟩ := S.exists_wrap multiplier hdata ρ'
  refine ⟨⟨header, content⟩, ρ'', .bind hheader (.bind hcontent (.pure _ _)), ?_⟩
  unfold unwrap
  rw [hrecover]
  exact hunwrap

end PublicParameters

end AttributeEncryption
