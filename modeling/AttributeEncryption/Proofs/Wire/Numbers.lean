import AttributeEncryption.Bytes
import Mathlib.Algebra.Ring.Nat

/-!
# Numbers and their bytes

A number below `256 ^ count` is given back by its bytes, and every byte string is that of the
number it stands for, in both byte orders. A list is given back by its pieces
(`flatten_chunks`), and pieces of one size by the list of them all (`chunks_flatten`).
-/

namespace AttributeEncryption

/-! ## Byte orders -/

theorem ofLittleEndian_lt (bytes : List UInt8) : ofLittleEndian bytes < 256 ^ bytes.length := by
  induction bytes with
  | nil => exact Nat.one_pos
  | cons b bytes ih =>
    have hb := b.toNat_lt
    simp only [ofLittleEndian, List.foldr_cons, List.length_cons, Nat.pow_succ] at *
    omega

theorem ofLittleEndian_littleEndian (count n : ℕ) :
    ofLittleEndian (littleEndian count n) = n % 256 ^ count := by
  induction count generalizing n with
  | zero => simp [littleEndian, ofLittleEndian, Nat.mod_one]
  | succ count ih =>
    have hstep : ofLittleEndian (littleEndian (count + 1) n) =
        n % 256 + 256 * ofLittleEndian (littleEndian count (n / 256)) := by
      simp [littleEndian, ofLittleEndian]
    rw [hstep, ih, Nat.pow_succ', Nat.mod_mul]

theorem littleEndian_ofLittleEndian (bytes : List UInt8) :
    littleEndian bytes.length (ofLittleEndian bytes) = bytes := by
  induction bytes with
  | nil => rfl
  | cons b bytes ih =>
    have hb := b.toNat_lt
    have hstep : ofLittleEndian (b :: bytes) = b.toNat + 256 * ofLittleEndian bytes := rfl
    have hhead : UInt8.ofNat (b.toNat + 256 * ofLittleEndian bytes) = b := by
      apply UInt8.toNat_inj.mp
      rw [UInt8.toNat_ofNat']
      omega
    have htail : (b.toNat + 256 * ofLittleEndian bytes) / 256 = ofLittleEndian bytes := by
      omega
    rw [List.length_cons, littleEndian, hstep, hhead, htail, ih]

theorem ofBigEndian_eq (bytes : List UInt8) :
    ofBigEndian bytes = ofLittleEndian bytes.reverse := by
  unfold ofBigEndian ofLittleEndian
  rw [List.foldr_reverse]
  congr 1
  funext n b
  exact Nat.add_comm _ _

theorem ofBigEndian_lt (bytes : List UInt8) : ofBigEndian bytes < 256 ^ bytes.length := by
  rw [ofBigEndian_eq, ← List.length_reverse]
  exact ofLittleEndian_lt _

theorem ofBigEndian_bigEndian {count n : ℕ} (h : n < 256 ^ count) :
    ofBigEndian (bigEndian count n) = n := by
  rw [ofBigEndian_eq, bigEndian, List.reverse_reverse, ofLittleEndian_littleEndian,
    Nat.mod_eq_of_lt h]

theorem bigEndian_ofBigEndian (bytes : List UInt8) :
    bigEndian bytes.length (ofBigEndian bytes) = bytes := by
  rw [ofBigEndian_eq, bigEndian, ← List.length_reverse, littleEndian_ofLittleEndian,
    List.reverse_reverse]

/-! ## Pieces -/

theorem length_of_mem_chunks {α : Type} {size : ℕ} : ∀ {count : ℕ} {items piece : List α},
    items.length = count * size → piece ∈ chunks size count items → piece.length = size
  | 0, _, _, _, h => by cases h
  | count + 1, items, piece, hlength, h => by
    rw [Nat.succ_mul] at hlength
    rcases List.mem_cons.mp h with rfl | h
    · rw [List.length_take]
      omega
    · refine length_of_mem_chunks ?_ h
      rw [List.length_drop]
      omega

theorem length_chunks {α : Type} (size count : ℕ) (items : List α) :
    (chunks size count items).length = count := by
  induction count generalizing items with
  | zero => rfl
  | succ count ih => rw [chunks, List.length_cons, ih]

theorem flatten_chunks {α : Type} {size : ℕ} : ∀ {count : ℕ} {items : List α},
    items.length = count * size → (chunks size count items).flatten = items
  | 0, items, hlength => by
    rw [Nat.zero_mul] at hlength
    rw [List.eq_nil_of_length_eq_zero hlength]
    rfl
  | count + 1, items, hlength => by
    rw [Nat.succ_mul] at hlength
    have hrest : (items.drop size).length = count * size := by
      rw [List.length_drop]
      omega
    rw [chunks, List.flatten_cons, flatten_chunks hrest, List.take_append_drop]

theorem length_flatten_of_length {α : Type} {size : ℕ} : ∀ {pieces : List (List α)},
    (∀ piece ∈ pieces, piece.length = size) → pieces.flatten.length = pieces.length * size
  | [], _ => by simp
  | piece :: pieces, h => by
    have hrest := length_flatten_of_length fun p hp => h p (List.mem_cons_of_mem _ hp)
    rw [List.flatten_cons, List.length_append, hrest, h piece List.mem_cons_self,
      List.length_cons, Nat.succ_mul, Nat.add_comm]

theorem chunks_flatten {α : Type} {size : ℕ} : ∀ {pieces : List (List α)},
    (∀ piece ∈ pieces, piece.length = size) → chunks size pieces.length pieces.flatten = pieces
  | [], _ => rfl
  | piece :: pieces, h => by
    have hpiece := h piece List.mem_cons_self
    have hrest := chunks_flatten fun p hp => h p (List.mem_cons_of_mem _ hp)
    rw [List.length_cons, List.flatten_cons, chunks, List.take_left' hpiece,
      List.drop_left' hpiece, hrest]

end AttributeEncryption
