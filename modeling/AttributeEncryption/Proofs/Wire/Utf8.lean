import AttributeEncryption.Proofs.Results
import AttributeEncryption.Text.Utf8
import Mathlib.Tactic.SplitIfs

/-!
# UTF-8 both ways

The bytes of a character are cut into this character, whatever follows them
(`piecesFrom_encodeChar`), and a first piece that is a character comes from its bytes
(`exists_of_piecesFrom_eq_cons`). So a byte string is read as a text exactly if it is the one
that the text is written as (`decode_eq_ok_iff`).
-/

namespace AttributeEncryption.Utf8

/-! ## Bytes of characters -/

theorem toNat_ofNat_of_valid {n : ℕ} (h : n.isValidChar) : (Char.ofNat n).toNat = n := by
  rw [Char.ofNat, dif_pos h]
  rfl

theorem encodeChar_of_lt_80 {c : Char} (h : c.toNat < 0x80) : encodeChar c = [.ofNat c.toNat] := by
  simp only [encodeChar, if_pos h]

theorem encodeChar_of_lt_800 {c : Char} (h : ¬ c.toNat < 0x80) (h' : c.toNat < 0x800) :
    encodeChar c = [.ofNat (0xC0 + c.toNat / 0x40), .ofNat (0x80 + c.toNat % 0x40)] := by
  simp only [encodeChar, if_neg h, if_pos h']

theorem encodeChar_of_lt_10000 {c : Char} (h : ¬ c.toNat < 0x800) (h' : c.toNat < 0x10000) :
    encodeChar c = [.ofNat (0xE0 + c.toNat / 0x1000), .ofNat (0x80 + c.toNat / 0x40 % 0x40),
      .ofNat (0x80 + c.toNat % 0x40)] := by
  have h'' : ¬ c.toNat < 0x80 := by omega
  simp only [encodeChar, if_neg h'', if_neg h, if_pos h']

theorem encodeChar_of_not_lt {c : Char} (h : ¬ c.toNat < 0x10000) :
    encodeChar c = [.ofNat (0xF0 + c.toNat / 0x40000), .ofNat (0x80 + c.toNat / 0x1000 % 0x40),
      .ofNat (0x80 + c.toNat / 0x40 % 0x40), .ofNat (0x80 + c.toNat % 0x40)] := by
  have h' : ¬ c.toNat < 0x80 := by omega
  have h'' : ¬ c.toNat < 0x800 := by omega
  simp only [encodeChar, if_neg h', if_neg h'', if_neg h]

/-! ## First bytes -/

/-- The first byte of a character of two bytes. -/
theorem lead?_two {b : ℕ} (h : 0xC2 ≤ b ∧ b ≤ 0xDF) :
    lead? b = some ⟨b - 0xC0, 1, 0, 0x80, 0xBF⟩ := by
  rw [lead?, if_pos h]

/-- The first byte of a character of three bytes, and what may follow it. -/
theorem lead?_three {b : ℕ} (h : 0xE0 ≤ b ∧ b ≤ 0xEF) :
    lead? b = some ⟨b - 0xE0, 1, 1, if b = 0xE0 then 0xA0 else 0x80,
      if b = 0xED then 0x9F else 0xBF⟩ := by
  rw [lead?, if_neg (by omega)]
  by_cases hlow : b = 0xE0
  · subst hlow
    rfl
  by_cases hhigh : b = 0xED
  · subst hhigh
    rfl
  · have hmiddle : 0xE1 ≤ b ∧ b ≤ 0xEF := by omega
    simp only [if_neg hlow, if_neg hhigh, if_pos hmiddle]

/-- The first byte of a character of four bytes, and what may follow it. -/
theorem lead?_four {b : ℕ} (h : 0xF0 ≤ b ∧ b ≤ 0xF4) :
    lead? b = some ⟨b - 0xF0, 1, 2, if b = 0xF0 then 0x90 else 0x80,
      if b = 0xF4 then 0x8F else 0xBF⟩ := by
  rw [lead?, if_neg (by omega), if_neg (by omega), if_neg (by omega), if_neg (by omega)]
  by_cases hlow : b = 0xF0
  · subst hlow
    rfl
  by_cases hhigh : b = 0xF4
  · subst hhigh
    rfl
  · have hmiddle : 0xF1 ≤ b ∧ b ≤ 0xF3 := by omega
    simp only [if_neg hlow, if_neg hhigh, if_pos hmiddle]

theorem lead?_eq_none {b : ℕ} (h : b < 0xC2 ∨ 0xF4 < b) : lead? b = none := by
  unfold lead?
  repeat rw [if_neg (by omega)]

/-! ## One byte after the other -/

section

variable {c : Char} {b : UInt8} {p : Pending} {rest : List UInt8}

theorem piecesFrom_none_cons : piecesFrom none (b :: rest) =
    (start b.toNat).1 ++ piecesFrom (start b.toNat).2 rest :=
  rfl

theorem piecesFrom_some_cons : piecesFrom (some p) (b :: rest) =
    (resume p b.toNat).1 ++ piecesFrom (resume p b.toNat).2 rest :=
  rfl

theorem piecesFrom_ascii (h : b.toNat < 0x80) (hc : Char.ofNat b.toNat = c) :
    piecesFrom none (b :: rest) = .char c :: piecesFrom none rest := by
  have hstart : start b.toNat = ([.char c], none) := by rw [start, if_pos h, hc]
  rw [piecesFrom_none_cons, hstart, List.singleton_append]

theorem piecesFrom_lead (h : lead? b.toNat = some p) :
    piecesFrom none (b :: rest) = piecesFrom (some p) rest := by
  have hb : ¬ b.toNat < 0x80 := by
    intro hb
    rw [lead?_eq_none (Or.inl (by omega))] at h
    cases h
  have hstart : start b.toNat = ([], some p) := by rw [start, if_neg hb, h]
  rw [piecesFrom_none_cons, hstart, List.nil_append]

theorem piecesFrom_broken (h : ¬ b.toNat < 0x80) (hlead : lead? b.toNat = none) :
    piecesFrom none (b :: rest) = .broken 1 :: piecesFrom none rest := by
  have hstart : start b.toNat = ([.broken 1], none) := by rw [start, if_neg h, hlead]
  rw [piecesFrom_none_cons, hstart, List.singleton_append]

theorem piecesFrom_last (h : p.low ≤ b.toNat ∧ b.toNat ≤ p.high) (hp : p.further = 0)
    (hc : Char.ofNat (p.value * 0x40 + (b.toNat - 0x80)) = c) :
    piecesFrom (some p) (b :: rest) = .char c :: piecesFrom none rest := by
  have hresume : resume p b.toNat = ([.char c], none) := by
    rw [resume, if_pos h, hp, ← hc]
  rw [piecesFrom_some_cons, hresume, List.singleton_append]

theorem piecesFrom_next {n : ℕ} (h : p.low ≤ b.toNat ∧ b.toNat ≤ p.high) (hp : p.further = n + 1) :
    piecesFrom (some p) (b :: rest) = piecesFrom
      (some ⟨p.value * 0x40 + (b.toNat - 0x80), p.width + 1, n, 0x80, 0xBF⟩) rest := by
  have hresume : resume p b.toNat =
      ([], some ⟨p.value * 0x40 + (b.toNat - 0x80), p.width + 1, n, 0x80, 0xBF⟩) := by
    rw [resume, if_pos h, hp]
  rw [piecesFrom_some_cons, hresume, List.nil_append]

/-- A byte that does not fit breaks the character off. -/
theorem exists_piecesFrom_misfit (h : ¬ (p.low ≤ b.toNat ∧ b.toNat ≤ p.high)) :
    ∃ tail, piecesFrom (some p) (b :: rest) = .broken p.width :: tail := by
  have hresume : resume p b.toNat = (.broken p.width :: (start b.toNat).1, (start b.toNat).2) := by
    rw [resume, if_neg h]
  exact ⟨_, by rw [piecesFrom_some_cons, hresume, List.cons_append]⟩

end

/-! ## Characters from their bytes -/

theorem ofNat_eq {c : Char} {n : ℕ} (h : c.toNat = n) : Char.ofNat n = c :=
  h ▸ Char.ofNat_toNat c

/-- The bytes of a character are cut into this character. -/
theorem piecesFrom_encodeChar (c : Char) (rest : List UInt8) :
    piecesFrom none (encodeChar c ++ rest) = .char c :: piecesFrom none rest := by
  have hvalid : c.toNat < 0xD800 ∨ 0xDFFF < c.toNat ∧ c.toNat < 0x110000 := c.valid
  have hbyte (n : ℕ) : (UInt8.ofNat n).toNat = n % 256 := UInt8.toNat_ofNat'
  by_cases h₁ : c.toNat < 0x80
  · rw [encodeChar_of_lt_80 h₁]
    exact piecesFrom_ascii (by rw [hbyte]; omega) (ofNat_eq (by rw [hbyte]; omega))
  by_cases h₂ : c.toNat < 0x800
  · rw [encodeChar_of_lt_800 h₁ h₂]
    simp only [List.cons_append, List.nil_append]
    rw [piecesFrom_lead (lead?_two (by rw [hbyte]; omega))]
    exact piecesFrom_last (by simp only [hbyte]; omega) rfl
      (ofNat_eq (by simp only [hbyte]; omega))
  by_cases h₃ : c.toNat < 0x10000
  · rw [encodeChar_of_lt_10000 h₂ h₃]
    simp only [List.cons_append, List.nil_append]
    rw [piecesFrom_lead (lead?_three (by rw [hbyte]; omega)),
      piecesFrom_next (by simp only [hbyte]; split_ifs <;> omega) rfl]
    exact piecesFrom_last (by simp only [hbyte]; omega) rfl
      (ofNat_eq (by simp only [hbyte]; omega))
  · rw [encodeChar_of_not_lt h₃]
    simp only [List.cons_append, List.nil_append]
    rw [piecesFrom_lead (lead?_four (by rw [hbyte]; omega)),
      piecesFrom_next (by simp only [hbyte]; split_ifs <;> omega) rfl,
      piecesFrom_next (by simp only [hbyte]; omega) rfl]
    exact piecesFrom_last (by simp only [hbyte]; omega) rfl
      (ofNat_eq (by simp only [hbyte]; omega))

/-! ## Bytes from their characters -/

section

variable {c : Char} {p : Pending} {bytes : List UInt8} {tail : List Piece}

theorem piecesFrom_ne_nil (p : Pending) (bytes : List UInt8) : piecesFrom (some p) bytes ≠ [] := by
  induction bytes generalizing p with
  | nil => exact List.cons_ne_nil _ _
  | cons b bytes ih =>
    by_cases hb : p.low ≤ b.toNat ∧ b.toNat ≤ p.high
    · cases hfurther : p.further with
      | zero =>
        rw [piecesFrom_last hb hfurther rfl]
        exact List.cons_ne_nil _ _
      | succ n =>
        rw [piecesFrom_next hb hfurther]
        exact ih _
    · obtain ⟨tail, htail⟩ := exists_piecesFrom_misfit hb
      rw [htail]
      exact List.cons_ne_nil _ _

/-- Bytes without pieces are none. -/
theorem eq_nil_of_piecesFrom_eq_nil (h : piecesFrom none bytes = []) : bytes = [] := by
  cases bytes with
  | nil => rfl
  | cons b bytes =>
    by_cases hascii : b.toNat < 0x80
    · rw [piecesFrom_ascii hascii rfl] at h
      cases h
    cases hlead : lead? b.toNat with
    | none =>
      rw [piecesFrom_broken hascii hlead] at h
      cases h
    | some p =>
      rw [piecesFrom_lead hlead] at h
      exact absurd h (piecesFrom_ne_nil p bytes)

/-- If a character that was started is completed, then the next byte fits it. -/
theorem exists_of_resumed (h : piecesFrom (some p) bytes = .char c :: tail) :
    ∃ b rest, bytes = b :: rest ∧ (p.low ≤ b.toNat ∧ b.toNat ≤ p.high) ∧
      match p.further with
      | 0 => c = Char.ofNat (p.value * 0x40 + (b.toNat - 0x80)) ∧ tail = piecesFrom none rest
      | n + 1 => piecesFrom
          (some ⟨p.value * 0x40 + (b.toNat - 0x80), p.width + 1, n, 0x80, 0xBF⟩) rest =
            .char c :: tail := by
  cases bytes with
  | nil => cases h
  | cons b rest =>
    by_cases hb : p.low ≤ b.toNat ∧ b.toNat ≤ p.high
    · refine ⟨b, rest, rfl, hb, ?_⟩
      cases hfurther : p.further with
      | zero =>
        rw [piecesFrom_last hb hfurther rfl] at h
        obtain ⟨hc, htail⟩ := List.cons.inj h
        exact ⟨(Piece.char.inj hc).symm, htail.symm⟩
      | succ n =>
        rw [piecesFrom_next hb hfurther] at h
        exact h
    · obtain ⟨tail', htail⟩ := exists_piecesFrom_misfit hb
      rw [htail] at h
      cases h

/-- A byte with the value that the form of a character asks for. -/
theorem eq_ofNat {b : UInt8} {n : ℕ} (h : b.toNat = n) : b = .ofNat n := by
  rw [← h, UInt8.ofNat_toNat]

theorem exists_of_two {b : UInt8} (hb : 0xC2 ≤ b.toNat ∧ b.toNat ≤ 0xDF)
    (h : piecesFrom none (b :: bytes) = .char c :: tail) :
    ∃ rest, b :: bytes = encodeChar c ++ rest ∧ piecesFrom none rest = tail := by
  rw [piecesFrom_lead (lead?_two hb)] at h
  obtain ⟨b₁, rest, rfl, ⟨hlow₁, hhigh₁⟩, hc, htail⟩ := exists_of_resumed h
  simp only at hlow₁ hhigh₁ hc
  have hn := congrArg Char.toNat hc
  rw [toNat_ofNat_of_valid (Or.inl (by omega))] at hn
  refine ⟨rest, ?_, htail.symm⟩
  rw [encodeChar_of_lt_800 (by omega) (by omega)]
  simp only [List.cons_append, List.nil_append, List.cons.injEq, and_true]
  exact ⟨eq_ofNat (by omega), eq_ofNat (by omega)⟩

/-- The range of the second byte leaves out overlong forms and surrogates. -/
theorem exists_of_three {b : UInt8} (hb : 0xE0 ≤ b.toNat ∧ b.toNat ≤ 0xEF)
    (h : piecesFrom none (b :: bytes) = .char c :: tail) :
    ∃ rest, b :: bytes = encodeChar c ++ rest ∧ piecesFrom none rest = tail := by
  rw [piecesFrom_lead (lead?_three hb)] at h
  obtain ⟨b₁, rest, rfl, ⟨hlow₁, hhigh₁⟩, h⟩ := exists_of_resumed h
  obtain ⟨b₂, rest, rfl, ⟨hlow₂, hhigh₂⟩, hc, htail⟩ := exists_of_resumed h
  simp only at hlow₁ hhigh₁ hlow₂ hhigh₂ hc
  have hn := congrArg Char.toNat hc
  have hvalid : Nat.isValidChar
      (((b.toNat - 0xE0) * 0x40 + (b₁.toNat - 0x80)) * 0x40 + (b₂.toNat - 0x80)) := by
    unfold Nat.isValidChar
    split_ifs at hlow₁ hhigh₁ <;> omega
  rw [toNat_ofNat_of_valid hvalid] at hn
  have hrange : 0x80 ≤ b₁.toNat ∧ b₁.toNat ≤ 0xBF ∧ 0x800 ≤ c.toNat := by
    split_ifs at hlow₁ hhigh₁ <;> omega
  refine ⟨rest, ?_, htail.symm⟩
  rw [encodeChar_of_lt_10000 (by omega) (by omega)]
  simp only [List.cons_append, List.nil_append, List.cons.injEq, and_true]
  exact ⟨eq_ofNat (by omega), eq_ofNat (by omega), eq_ofNat (by omega)⟩

/-- The range of the second byte leaves out overlong forms and values above U+10FFFF. -/
theorem exists_of_four {b : UInt8} (hb : 0xF0 ≤ b.toNat ∧ b.toNat ≤ 0xF4)
    (h : piecesFrom none (b :: bytes) = .char c :: tail) :
    ∃ rest, b :: bytes = encodeChar c ++ rest ∧ piecesFrom none rest = tail := by
  rw [piecesFrom_lead (lead?_four hb)] at h
  obtain ⟨b₁, rest, rfl, ⟨hlow₁, hhigh₁⟩, h⟩ := exists_of_resumed h
  obtain ⟨b₂, rest, rfl, ⟨hlow₂, hhigh₂⟩, h⟩ := exists_of_resumed h
  obtain ⟨b₃, rest, rfl, ⟨hlow₃, hhigh₃⟩, hc, htail⟩ := exists_of_resumed h
  simp only at hlow₁ hhigh₁ hlow₂ hhigh₂ hlow₃ hhigh₃ hc
  have hn := congrArg Char.toNat hc
  rw [toNat_ofNat_of_valid (Or.inr (by split_ifs at hlow₁ hhigh₁ <;> omega))] at hn
  have hrange : 0x80 ≤ b₁.toNat ∧ b₁.toNat ≤ 0xBF ∧ 0x10000 ≤ c.toNat := by
    split_ifs at hlow₁ hhigh₁ <;> omega
  refine ⟨rest, ?_, htail.symm⟩
  rw [encodeChar_of_not_lt (by omega)]
  simp only [List.cons_append, List.nil_append, List.cons.injEq, and_true]
  exact ⟨eq_ofNat (by omega), eq_ofNat (by omega), eq_ofNat (by omega), eq_ofNat (by omega)⟩

/-- If a character comes first, then its bytes do. -/
theorem exists_of_piecesFrom_eq_cons (h : piecesFrom none bytes = .char c :: tail) :
    ∃ rest, bytes = encodeChar c ++ rest ∧ piecesFrom none rest = tail := by
  cases bytes with
  | nil => cases h
  | cons b rest =>
    by_cases hascii : b.toNat < 0x80
    · have hc : (Char.ofNat b.toNat).toNat = b.toNat := toNat_ofNat_of_valid (Or.inl (by omega))
      rw [piecesFrom_ascii hascii rfl] at h
      obtain ⟨hchar, htail⟩ := List.cons.inj h
      rw [← Piece.char.inj hchar, encodeChar_of_lt_80 (by omega), hc, UInt8.ofNat_toNat]
      exact ⟨rest, rfl, htail⟩
    by_cases htwo : 0xC2 ≤ b.toNat ∧ b.toNat ≤ 0xDF
    · exact exists_of_two htwo h
    by_cases hthree : 0xE0 ≤ b.toNat ∧ b.toNat ≤ 0xEF
    · exact exists_of_three hthree h
    by_cases hfour : 0xF0 ≤ b.toNat ∧ b.toNat ≤ 0xF4
    · exact exists_of_four hfour h
    · have hnone : lead? b.toNat = none := lead?_eq_none (by omega)
      rw [piecesFrom_broken hascii hnone] at h
      cases h

end

/-! ## Texts -/

theorem pieces_eq_chars_iff {cs : List Char} {bytes : List UInt8} :
    pieces bytes = cs.map .char ↔ bytes = cs.flatMap encodeChar := by
  unfold pieces
  induction cs generalizing bytes with
  | nil =>
    refine ⟨eq_nil_of_piecesFrom_eq_nil, ?_⟩
    rintro rfl
    rfl
  | cons c cs ih =>
    rw [List.map_cons, List.flatMap_cons]
    constructor
    · intro h
      obtain ⟨rest, rfl, hrest⟩ := exists_of_piecesFrom_eq_cons h
      rw [ih.mp hrest]
    · rintro rfl
      rw [piecesFrom_encodeChar, ih.mpr rfl]

/-- Pieces are read as characters if that is what all of them are. -/
theorem charsFrom_eq_ok_iff {index : ℕ} {ps : List Piece} {cs : List Char} :
    charsFrom index ps = .ok cs ↔ ps = cs.map .char := by
  induction ps generalizing index cs with
  | nil => cases cs <;> simp [charsFrom]
  | cons piece ps ih =>
    cases piece with
    | char c =>
      constructor
      · intro h
        obtain ⟨cs, hcs, rfl⟩ := exists_of_map_eq_ok h
        rw [ih.mp hcs, List.map_cons]
      · intro h
        cases cs with
        | nil => cases h
        | cons c' cs =>
          obtain ⟨hc, hps⟩ := List.cons.inj h
          obtain rfl := Piece.char.inj hc
          rw [charsFrom, ih.mpr hps]
          rfl
    | broken width => cases cs <;> simp [charsFrom]
    | cutOff width => cases cs <;> simp [charsFrom]

/-- A byte string is read as a text exactly if it is the one that the text is written as. -/
theorem decode_eq_ok_iff {bytes : List UInt8} {s : String} :
    decode bytes = .ok s ↔ bytes = encode s := by
  unfold decode encode
  rw [← pieces_eq_chars_iff, ← @charsFrom_eq_ok_iff 0]
  constructor
  · intro h
    obtain ⟨cs, hcs, rfl⟩ := exists_of_map_eq_ok h
    rw [hcs, String.toList_ofList]
  · intro h
    rw [h]
    exact congrArg Except.ok String.ofList_toList

end AttributeEncryption.Utf8
