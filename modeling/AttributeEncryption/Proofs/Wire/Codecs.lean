import AttributeEncryption.Proofs.Scheme.Groups
import AttributeEncryption.Proofs.Wire.Numbers

/-!
# Byte forms that can be read back

A byte form is lawful if every value has bytes of the stated width and is given back by them
(`Codec.Lawful`). Pairs of lawful forms are lawful, and so is the form of a residue if its
factor has the inverse that is used. So the byte forms of the curve's groups are lawful
(`encodes_bn254`), and those of the exponents (`encodes_exponents`).
-/

open scoped Fin.CommRing

namespace AttributeEncryption

/-- Every value is written in the stated width, and read back from its bytes. -/
structure Codec.Lawful {α : Type} (c : Codec α) : Prop where
  length_encode : ∀ a, (c.encode a).length = c.width
  decode_encode : ∀ a, c.decode (c.encode a) = a

namespace Codec.Lawful

variable {α β : Type} {c : Codec α} {d : Codec β}

theorem read_encode (h : c.Lawful) (a : α) : c.read (c.encode a) = .ok a := by
  have hlength := h.length_encode a
  rw [Codec.read, if_neg (by omega), if_neg (by omega), h.decode_encode]

theorem pair (hc : c.Lawful) (hd : d.Lawful) : (c.pair d).Lawful where
  length_encode p := by
    simp only [Codec.pair, List.length_append, hc.length_encode, hd.length_encode]
  decode_encode p := by
    simp only [Codec.pair, List.take_left' (hc.length_encode p.1),
      List.drop_left' (hc.length_encode p.1), hc.decode_encode, hd.decode_encode]

theorem imap {into : α → β} {out : β → α} (hc : c.Lawful) (h : ∀ b, into (out b) = b) :
    (c.imap into out).Lawful where
  length_encode b := hc.length_encode (out b)
  decode_encode b := by
    simp only [Codec.imap, hc.decode_encode, h]

theorem residue {p : ℕ} [NeZero p] (hp : 0 < p) {radixInverse : Fin p} (hlt : p ≤ 256 ^ 32)
    (h : Residue.radix hp * radixInverse = 1) : (Residue.codec hp radixInverse).Lawful where
  length_encode x := length_littleEndian _ _
  decode_encode x := by
    have hval : (x * Residue.radix hp).val < 256 ^ 32 := (Fin.isLt _).trans_le hlt
    have hof (y : Fin p) : Residue.ofNat hp y.val = y := Fin.ext (Nat.mod_eq_of_lt y.isLt)
    change Residue.ofNat hp (ofLittleEndian (littleEndian 32 (x * Residue.radix hp).val)) *
      radixInverse = x
    rw [ofLittleEndian_littleEndian, Nat.mod_eq_of_lt hval, hof, mul_assoc, h, mul_one]

end Codec.Lawful

/-- The byte forms of the groups of a suite are lawful. -/
structure Suite.Encodes (S : Suite) : Prop where
  g1 : S.g1.codec.Lawful
  g2 : S.g2.codec.Lawful
  gt : S.gt.codec.Lawful

/-! ## The curve -/

theorem Base.lawful_codec : Base.codec.Lawful :=
  .residue Base.order_pos (by decide) (by decide +kernel)

theorem Scalar.lawful_codec : Scalar.codec.Lawful :=
  .residue Scalar.order_pos (by decide) (by decide +kernel)

theorem Quadratic.lawful_codec : Quadratic.codec.Lawful :=
  (Base.lawful_codec.pair Base.lawful_codec).imap fun _ => rfl

theorem Sextic.lawful_codec : Sextic.codec.Lawful :=
  (Quadratic.lawful_codec.pair (Quadratic.lawful_codec.pair Quadratic.lawful_codec)).imap
    fun _ => rfl

theorem Dodecic.lawful_codec : Dodecic.codec.Lawful :=
  (Sextic.lawful_codec.pair Sextic.lawful_codec).imap fun _ => rfl

theorem Jacobian.lawful_codec {F : Type} {coordinate : Codec F} (h : coordinate.Lawful) :
    (Jacobian.codec coordinate).Lawful :=
  (h.pair (h.pair h)).imap fun _ => rfl

theorem encodes_bn254 : bn254.Encodes where
  g1 := Jacobian.lawful_codec Base.lawful_codec
  g2 := Jacobian.lawful_codec Quadratic.lawful_codec
  gt := Dodecic.lawful_codec

theorem encodes_exponents : exponents.Encodes where
  g1 := Scalar.lawful_codec
  g2 := Scalar.lawful_codec
  gt := Scalar.lawful_codec

end AttributeEncryption
