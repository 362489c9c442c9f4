import AttributeEncryption.Algebra.Decimal
import AttributeEncryption.Proofs.Scalars

/-!
# Scalars of 64-bit numbers

Whatever reads a text of decimal digits as the residue of its value (`ReadsDecimals`) makes every
64-bit number its residue modulo the group order, with or without a sign
(`ReadsDecimals.ofUnsigned_eq`, `ReadsDecimals.ofSigned_eq`) : the conversion never fails, and the
detour by a text leaves no trace. Evaluating digit by digit in the scalars is one way to read
texts (`readsDecimals_ofDecimal?`).
-/

open scoped Fin.CommRing

namespace AttributeEncryption

/-- Texts of decimal digits are read as the residues of their values. -/
def ReadsDecimals (read : String → Option Scalar) : Prop :=
  ∀ text : String, text ≠ "" → (∀ c ∈ text.toList, c.isDigit = true) →
    read text = some (Scalar.ofNat (Nat.ofDigitChars 10 text.toList 0))

namespace ReadsDecimals

variable {read : String → Option Scalar}

theorem toString_eq (hread : ReadsDecimals read) (n : ℕ) :
    read (toString n) = some (Scalar.ofNat n) := by
  have hdigits : (toString n).toList = Nat.toDigits 10 n := by
    rw [Nat.toString_eq_repr, Nat.toList_repr]
  have hne : toString n ≠ "" := by
    intro h
    rw [h] at hdigits
    exact Nat.toDigits_ne_nil hdigits.symm
  rw [hread _ hne, hdigits, Nat.ofDigitChars_toDigits (by decide) le_rfl]
  intro c hc
  rw [hdigits] at hc
  exact Nat.isDigit_of_mem_toDigits (by decide) le_rfl hc

theorem ofUnsigned_eq (hread : ReadsDecimals read) (n : UInt64) :
    Scalar.ofUnsigned read n = .ok (Scalar.ofNat n.toNat) := by
  have htext : read (toString n) = some (Scalar.ofNat n.toNat) := hread.toString_eq n.toNat
  rw [Scalar.ofUnsigned, htext]

/-- The magnitude of a signed number is a number without a sign, also that of the least one. -/
theorem ofUnsigned_natAbs_eq (hread : ReadsDecimals read) (n : Int64) :
    Scalar.ofUnsigned read (.ofNat n.toInt.natAbs) = .ok (Scalar.ofNat n.toInt.natAbs) := by
  have hmagnitude : (UInt64.ofNat n.toInt.natAbs).toNat = n.toInt.natAbs := by
    refine UInt64.toNat_ofNat_of_lt' ?_
    have hleast := n.le_toInt
    have hgreatest := n.toInt_lt
    change n.toInt.natAbs < 2 ^ 64
    omega
  rw [hread.ofUnsigned_eq, hmagnitude]

theorem ofSigned_eq (hread : ReadsDecimals read) (n : Int64) :
    Scalar.ofSigned read n = .ok (Scalar.ofInt n.toInt) := by
  have hneg : n < 0 ↔ n.toInt < 0 := Int64.lt_iff_toInt_lt
  rw [Scalar.ofSigned, hread.ofUnsigned_natAbs_eq, Scalar.ofInt]
  simp only [hneg]
  split_ifs <;> rfl

end ReadsDecimals

/-- Evaluating digit by digit, every step modulo the group order, is one way to read decimals. -/
theorem readsDecimals_ofDecimal? : ReadsDecimals Scalar.ofDecimal? := by
  intro text _ hdigits
  suffices h : ∀ (cs : List Char) (n : ℕ), (∀ c ∈ cs, c.isDigit = true) →
      cs.foldlM (fun k c => if c.isDigit then
        some (Scalar.ofNat 10 * k + Scalar.ofNat (c.toNat - '0'.toNat)) else none)
        (Scalar.ofNat n) = some (Scalar.ofNat (Nat.ofDigitChars 10 cs n)) from
    h text.toList 0 hdigits
  intro cs
  induction cs with
  | nil => exact fun n _ => rfl
  | cons c cs ih =>
    intro n hcs
    obtain ⟨hc, hcs⟩ := List.forall_mem_cons.mp hcs
    have hstep : Scalar.ofNat 10 * Scalar.ofNat n + Scalar.ofNat (c.toNat - '0'.toNat) =
        Scalar.ofNat (10 * n + (c.toNat - '0'.toNat)) := by
      simp only [Scalar.ofNat_eq_cast, Nat.cast_add, Nat.cast_mul]
    rw [List.foldlM_cons, if_pos hc, hstep, Nat.ofDigitChars_cons]
    exact ih _ hcs

end AttributeEncryption
