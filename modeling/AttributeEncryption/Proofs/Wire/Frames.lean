import AttributeEncryption.Proofs.Results
import AttributeEncryption.Proofs.Wire.Codecs
import AttributeEncryption.Proofs.Wire.Utf8
import AttributeEncryption.Wire.Framing
import Mathlib.Data.List.Infix

/-!
# What readers take

`Reader.Takes read bytes a` says that the reader takes exactly these bytes off the front of any
input and gives `a`, and that an input which ends inside them is too short and nothing else.
Every reader of a frame takes what the writer of the frame gives, and there is one rule for each
way in which readers are put together. In the other direction, the `_inv` theorems say which
frame an input that was read starts with.
-/

namespace AttributeEncryption

/-- The input ended inside a value. -/
def Failure.EndsEarly (cause : Failure) : Prop :=
  ∃ shortage, cause = .stream (.unexpectedEnd shortage)

/-! ## Sequences of frames -/

namespace Frame

theorem sequence_cons_eq_ok {first : Written} {rest : List Written} {bytes : List UInt8} :
    sequence (first :: rest) = .ok bytes ↔
      ∃ head tail, first = .ok head ∧ sequence rest = .ok tail ∧ bytes = head ++ tail := by
  cases first with
  | error cause => simp [sequence, bind, Except.bind]
  | ok head =>
    cases hrest : sequence rest with
    | error cause => simp [sequence, hrest, bind, Except.bind]
    | ok tail => simp [sequence, hrest, bind, Except.bind, pure, Except.pure, eq_comm]

theorem sequence_singleton_eq_ok {frame : Written} {bytes : List UInt8} :
    sequence [frame] = .ok bytes ↔ frame = .ok bytes := by
  rw [sequence_cons_eq_ok]
  constructor
  · rintro ⟨head, tail, rfl, htail, rfl⟩
    rw [← Except.ok.inj htail, List.append_nil]
  · rintro rfl
    exact ⟨bytes, [], rfl, rfl, (List.append_nil bytes).symm⟩

theorem sequence_append_eq_ok {first second : List Written} {bytes : List UInt8} :
    sequence (first ++ second) = .ok bytes ↔
      ∃ head tail, sequence first = .ok head ∧ sequence second = .ok tail ∧
        bytes = head ++ tail := by
  induction first generalizing bytes with
  | nil => simp [sequence]
  | cons frame first ih =>
    simp only [List.cons_append, sequence_cons_eq_ok, ih]
    constructor
    · rintro ⟨head, tail, hframe, ⟨head', tail', hfirst, hsecond, rfl⟩, rfl⟩
      exact ⟨_, tail', ⟨head, head', hframe, hfirst, rfl⟩, hsecond, (List.append_assoc ..).symm⟩
    · rintro ⟨head, tail, ⟨head', tail', hframe, hfirst, rfl⟩, hsecond, rfl⟩
      exact ⟨head', _, hframe, ⟨tail', tail, hfirst, hsecond, rfl⟩, List.append_assoc ..⟩

theorem exists_sequence_nil : ∃ bytes, sequence [] = .ok bytes :=
  ⟨[], rfl⟩

theorem exists_sequence_cons {frame : Written} {frames : List Written}
    (hframe : ∃ bytes, frame = .ok bytes) (hframes : ∃ bytes, sequence frames = .ok bytes) :
    ∃ bytes, sequence (frame :: frames) = .ok bytes := by
  obtain ⟨head, hhead⟩ := hframe
  obtain ⟨tail, htail⟩ := hframes
  exact ⟨head ++ tail, sequence_cons_eq_ok.mpr ⟨head, tail, hhead, htail, rfl⟩⟩

/-- Items can be written one after the other if each of them can. -/
theorem exists_sequence_map {α : Type} {write : α → Written} :
    ∀ {items : List α}, (∀ a ∈ items, ∃ bytes, write a = .ok bytes) →
      ∃ bytes, sequence (items.map write) = .ok bytes
  | [], _ => exists_sequence_nil
  | a :: _, h => exists_sequence_cons (h a List.mem_cons_self)
      (exists_sequence_map fun a' ha' => h a' (List.mem_cons_of_mem a ha'))

/-- Frames that can all be written are written one after the other. -/
theorem sequence_map_eq_ok {α : Type} {items : List α} {write : α → Written}
    {bytes : α → List UInt8} (h : ∀ a ∈ items, write a = .ok (bytes a)) :
    sequence (items.map write) = .ok (items.flatMap bytes) := by
  induction items with
  | nil => rfl
  | cons a items ih =>
    have hrest := ih fun a' ha' => h a' (List.mem_cons_of_mem _ ha')
    exact sequence_cons_eq_ok.mpr ⟨_, _, h a List.mem_cons_self, hrest, List.flatMap_cons ..⟩

theorem length_eq_ok {n : ℕ} {bytes : List UInt8} :
    length n = .ok bytes ↔ n < 2 ^ 32 ∧ bytes = word (.ofNat n) := by
  unfold length
  split_ifs with h
  · exact ⟨fun heq => ⟨h, (Except.ok.inj heq).symm⟩, fun heq => heq.2 ▸ rfl⟩
  · exact ⟨fun heq => (nomatch heq), fun heq => absurd heq.1 h⟩

theorem bytes_eq_ok {data bytes : List UInt8} :
    Frame.bytes data = .ok bytes ↔
      data.length < 2 ^ 32 ∧ bytes = word (.ofNat data.length) ++ data := by
  unfold Frame.bytes
  cases hhead : length data.length with
  | error cause =>
    refine ⟨fun h => (nomatch h), fun h => ?_⟩
    rw [length_eq_ok.mpr ⟨h.1, rfl⟩] at hhead
    cases hhead
  | ok head =>
    obtain ⟨hlt, rfl⟩ := length_eq_ok.mp hhead
    exact ⟨fun h => ⟨hlt, (Except.ok.inj h).symm⟩, fun h => h.2 ▸ rfl⟩

theorem length_word (n : UInt32) : (word n).length = 4 :=
  length_bigEndian _ _

end Frame

/-! ## Readers that take some bytes -/

/-- The reader takes these bytes off the front of any input and gives `a`; an input that ends
inside them is too short. -/
structure Reader.Takes {α : Type} (read : Reader α) (bytes : List UInt8) (a : α) : Prop where
  append : ∀ rest, read (bytes ++ rest) = .ok (a, rest)
  cut : ∀ {part}, part <+: bytes → part ≠ bytes → ∃ cause, read part = .error cause ∧
    cause.EndsEarly

namespace Reader

variable {α β : Type}

theorem run_bind (x : Reader α) (f : α → Reader β) (input : List UInt8) :
    (x >>= f) input = x input >>= fun out => f out.1 out.2 :=
  rfl

theorem run_bind_ok {x : Reader α} {input rest : List UInt8} {a : α} (h : x input = .ok (a, rest))
    (f : α → Reader β) : (x >>= f) input = f a rest := by
  rw [run_bind, h]
  rfl

theorem run_bind_error {x : Reader α} {input : List UInt8} {cause : Failure}
    (h : x input = .error cause) (f : α → Reader β) : (x >>= f) input = .error cause := by
  rw [run_bind, h]
  rfl

theorem ofBytes_map (x : Reader α) (f : α → β) (input : List UInt8) :
    ofBytes (f <$> x) input = (ofBytes x input).map f := by
  unfold ofBytes
  change (StateT.run (f <$> x) input).map _ = ((StateT.run x input).map _).map f
  rw [StateT.run_map]
  cases StateT.run x input <;> rfl

/-- A successful run of two readers is one of each. -/
theorem bind_inv {x : Reader α} {f : α → Reader β} {input rest : List UInt8} {b : β}
    (h : (x >>= f) input = .ok (b, rest)) :
    ∃ a mid, x input = .ok (a, mid) ∧ f a mid = .ok (b, rest) := by
  cases hx : x input with
  | error cause =>
    rw [run_bind_error hx] at h
    cases h
  | ok out => exact ⟨out.1, out.2, rfl, by rwa [run_bind_ok hx] at h⟩

theorem check_inv {result : Except Failure α} {input rest : List UInt8} {a : α}
    (h : check result input = .ok (a, rest)) : result = .ok a ∧ input = rest := by
  obtain ⟨a', rfl, ha⟩ := exists_of_map_eq_ok h
  cases ha
  exact ⟨rfl, rfl⟩

namespace Takes

variable {x : Reader α} {f : α → Reader β} {bytes bytes' : List UInt8} {a : α} {b : β}

theorem ofBytes_eq (h : x.Takes bytes a) (rest : List UInt8) :
    ofBytes x (bytes ++ rest) = .ok a := by
  rw [ofBytes, h.append]
  rfl

theorem pure (a : α) : (Pure.pure a : Reader α).Takes [] a where
  append _ := rfl
  cut hpart hne := absurd (List.prefix_nil.mp hpart) hne

theorem check {result : Except Failure α} (h : result = .ok a) :
    (Reader.check result).Takes [] a where
  append rest := by
    rw [h]
    rfl
  cut hpart hne := absurd (List.prefix_nil.mp hpart) hne

/-- The rule for two readers in a row : the input ends inside the bytes of the first, or it
starts with them and ends inside those of the second. -/
theorem bind (hx : x.Takes bytes a) (hf : (f a).Takes bytes' b) :
    (x >>= f).Takes (bytes ++ bytes') b where
  append rest := by
    rw [List.append_assoc, run_bind_ok (hx.append _), hf.append]
  cut {part} hpart hne := by
    by_cases hfirst : bytes <+: part
    · obtain ⟨part', rfl⟩ := hfirst
      obtain ⟨cause, hcause, hearly⟩ := hf.cut ((List.prefix_append_right_inj bytes).mp hpart)
        fun heq => hne (congrArg _ heq)
      exact ⟨cause, by rw [run_bind_ok (hx.append _), hcause], hearly⟩
    · have hshort : part <+: bytes :=
        (List.prefix_or_prefix_of_prefix hpart (List.prefix_append _ _)).resolve_right hfirst
      obtain ⟨cause, hcause, hearly⟩ := hx.cut hshort fun heq => hfirst (heq ▸ List.prefix_rfl)
      exact ⟨cause, run_bind_error hcause f, hearly⟩

/-- The rule for a second reader that takes nothing. -/
theorem bind_nil (hx : x.Takes bytes a) (hf : (f a).Takes [] b) : (x >>= f).Takes bytes b := by
  rw [← List.append_nil bytes]
  exact hx.bind hf

/-- The rule for a reader of the first of several frames and a reader of the others. -/
theorem bind_frame {frame : Written} {frames : List Written}
    (h : Frame.sequence (frame :: frames) = .ok bytes)
    (hx : ∀ {head}, frame = .ok head → x.Takes head a)
    (hf : ∀ {tail}, Frame.sequence frames = .ok tail → (f a).Takes tail b) :
    (x >>= f).Takes bytes b := by
  obtain ⟨head, tail, hhead, htail, rfl⟩ := Frame.sequence_cons_eq_ok.mp h
  exact (hx hhead).bind (hf htail)

theorem of_not {c : Prop} [Decidable c] {y : Reader α} (hc : ¬ c) (hx : x.Takes bytes a) :
    (if c then y else x).Takes bytes a := by
  rwa [if_neg hc]

end Takes

/-! ## Numbers and byte strings -/

theorem takes_word (n : UInt32) : word.Takes (Frame.word n) n where
  append rest := by
    have hn : n.toNat < 256 ^ 4 := n.toNat_lt
    obtain ⟨a, b, c, d, h⟩ := List.length_eq_four.mp (Frame.length_word n)
    have hvalue : ofBigEndian [a, b, c, d] = n.toNat := by
      rw [← h]
      exact ofBigEndian_bigEndian hn
    rw [h]
    simp only [List.cons_append, List.nil_append, word, hvalue, UInt32.ofNat_toNat]
  cut {part} hpart hne := by
    have hlength := hpart.length_le
    have hne' : part.length ≠ (Frame.word n).length := fun heq => hne (hpart.eq_of_length heq)
    rw [Frame.length_word] at hlength hne'
    refine ⟨_, ?_, .fixedWidth, rfl⟩
    unfold word
    split
    · simp only [List.length_cons] at hlength hne'
      omega
    · rfl

theorem takes_word_frame {n : UInt32} {bytes : List UInt8}
    (h : (.ok (Frame.word n) : Written) = .ok bytes) : word.Takes bytes n :=
  Except.ok.inj h ▸ takes_word n

theorem word_inv {input rest : List UInt8} {n : UInt32} (h : word input = .ok (n, rest)) :
    input = Frame.word n ++ rest := by
  unfold word at h
  split at h
  · next a b c d rest' =>
    obtain ⟨rfl, rfl⟩ := Prod.mk.inj (Except.ok.inj h)
    have hlt : ofBigEndian [a, b, c, d] < 256 ^ 4 := ofBigEndian_lt [a, b, c, d]
    have hbytes : Frame.word (.ofNat (ofBigEndian [a, b, c, d])) = [a, b, c, d] := by
      rw [Frame.word, UInt32.toNat_ofNat_of_lt' hlt]
      exact bigEndian_ofBigEndian [a, b, c, d]
    rw [hbytes]
    rfl
  · cases h

theorem takes_signedWord (n : Int32) : signedWord.Takes (Frame.signedWord n) n :=
  (takes_word n.toUInt32).bind_nil (.pure _)

theorem signedWord_inv {input rest : List UInt8} {n : Int32}
    (h : signedWord input = .ok (n, rest)) : input = Frame.signedWord n ++ rest := by
  obtain ⟨m, mid, hword, hpure⟩ := bind_inv h
  cases hpure
  exact word_inv hword

theorem takes_length_word (w : UInt32) : length.Takes (Frame.word w) w.toNat :=
  (takes_word w).bind_nil (.pure _)

theorem takes_length {n : ℕ} {bytes : List UInt8} (h : Frame.length n = .ok bytes) :
    length.Takes bytes n := by
  obtain ⟨hlt, rfl⟩ := Frame.length_eq_ok.mp h
  have htakes := takes_length_word (.ofNat n)
  rwa [UInt32.toNat_ofNat_of_lt' hlt] at htakes

theorem length_inv {input rest : List UInt8} {n : ℕ} (h : length input = .ok (n, rest)) :
    ∃ w : UInt32, w.toNat = n ∧ input = Frame.word w ++ rest := by
  obtain ⟨w, mid, hword, hpure⟩ := bind_inv h
  cases hpure
  exact ⟨w, rfl, word_inv hword⟩

theorem eq_of_length {input rest : List UInt8} {w : UInt32}
    (h : length input = .ok (w.toNat, rest)) : input = Frame.word w ++ rest := by
  obtain ⟨w', hw', rfl⟩ := length_inv h
  rw [UInt32.toNat_inj.mp hw']

theorem length_lt {input rest : List UInt8} {n : ℕ} (h : length input = .ok (n, rest)) :
    n < 2 ^ 32 := by
  obtain ⟨w, rfl, -⟩ := length_inv h
  exact w.toNat_lt

/-- What is read as a length can be written as one. -/
theorem exists_length {input rest : List UInt8} {n : ℕ} (h : length input = .ok (n, rest)) :
    ∃ bytes, Frame.length n = .ok bytes :=
  ⟨_, Frame.length_eq_ok.mpr ⟨length_lt h, rfl⟩⟩

/-- The bytes that were advertised, or the input is too short. -/
def advertised (n : ℕ) : Reader (List UInt8) := fun input =>
  if n ≤ input.length then .ok (input.take n, input.drop n)
  else .error (.stream (.unexpectedEnd (.advertised n input.length)))

/-- A byte string is a length, and what it advertises. -/
theorem bytes_eq : bytes = length >>= advertised := by
  unfold bytes
  congr 1
  funext n input
  change (if (input.take n).length = n then _ else _ : Reader (List UInt8)) input = _
  rw [List.length_take, advertised]
  split_ifs with h₁ h₂ h₂
  · rfl
  · omega
  · omega
  · rw [Nat.min_eq_right (by omega)]
    rfl

theorem takes_advertised (data : List UInt8) : (advertised data.length).Takes data data where
  append rest := by
    rw [advertised, if_pos (by simp), List.take_left, List.drop_left]
  cut {part} hpart hne := by
    have hle := hpart.length_le
    have hshort : part.length ≠ data.length := fun heq => hne (hpart.eq_of_length heq)
    exact ⟨_, if_neg (by omega), _, rfl⟩

theorem takes_bytes {data bytes : List UInt8} (h : Frame.bytes data = .ok bytes) :
    Reader.bytes.Takes bytes data := by
  obtain ⟨hlt, rfl⟩ := Frame.bytes_eq_ok.mp h
  rw [bytes_eq]
  exact (takes_length (Frame.length_eq_ok.mpr ⟨hlt, rfl⟩)).bind (takes_advertised data)

theorem bytes_inv {input rest data : List UInt8} (h : bytes input = .ok (data, rest)) :
    data.length < 2 ^ 32 ∧ input = Frame.word (.ofNat data.length) ++ data ++ rest := by
  rw [bytes_eq] at h
  obtain ⟨n, mid, hlength, hdata⟩ := bind_inv h
  unfold advertised at hdata
  split_ifs at hdata with hle
  obtain ⟨rfl, rfl⟩ := Prod.mk.inj (Except.ok.inj hdata)
  have hn : (mid.take n).length = n := List.length_take_of_le hle
  have hlt := length_lt hlength
  obtain ⟨w, rfl, rfl⟩ := length_inv hlength
  rw [hn, UInt32.ofNat_toNat, List.append_assoc, List.take_append_drop]
  exact ⟨hlt, rfl⟩

/-! ## Texts, tags and elements -/

theorem takes_text {s : String} {bytes : List UInt8} (h : Frame.text s = .ok bytes) :
    text.Takes bytes s := by
  have hcheck : (Utf8.decode (Utf8.encode s)).mapError
      (fun fault => Failure.invalidData (.notUtf8 fault)) = .ok s := by
    rw [Utf8.decode_eq_ok_iff.mpr rfl]
    rfl
  exact (takes_bytes h).bind_nil (.check hcheck)

/-- A text that was read can be written. -/
theorem exists_text {input rest : List UInt8} {s : String} (h : text input = .ok (s, rest)) :
    ∃ bytes, Frame.text s = .ok bytes := by
  obtain ⟨data, mid, hbytes, hcheck⟩ := bind_inv h
  have hdecode := (check_inv hcheck).1
  cases hs : Utf8.decode data with
  | error fault =>
    rw [hs] at hdecode
    cases hdecode
  | ok s' =>
    rw [hs] at hdecode
    cases hdecode
    rw [Frame.text, ← Utf8.decode_eq_ok_iff.mp hs]
    exact ⟨_, Frame.bytes_eq_ok.mpr ⟨(bytes_inv hbytes).1, rfl⟩⟩

theorem takes_tag {expected bytes : List UInt8} {failure : TagMismatch → Failure}
    (h : Frame.bytes expected = .ok bytes) : (tag expected failure).Takes bytes () := by
  refine (takes_bytes h).bind_nil ?_
  rw [if_pos rfl]
  exact .pure ()

theorem takes_element {c : Codec α} (hc : c.Lawful) {a : α} {bytes : List UInt8}
    (h : Frame.element c a = .ok bytes) : (element c).Takes bytes a :=
  (takes_bytes h).bind_nil (.check (hc.read_encode a))

/-- If one element was read, then every element can be written. -/
theorem exists_element {c : Codec α} (hc : c.Lawful) {a : α} {input rest : List UInt8}
    (h : element c input = .ok (a, rest)) (a' : α) : ∃ bytes, Frame.element c a' = .ok bytes := by
  obtain ⟨data, mid, hbytes, hcheck⟩ := bind_inv h
  have hread := (check_inv hcheck).1
  have hdata := (bytes_inv hbytes).1
  have hwidth : data.length = c.width := by
    unfold Codec.read at hread
    split_ifs at hread
    omega
  exact ⟨_, Frame.bytes_eq_ok.mpr ⟨by rw [hc.length_encode]; omega, rfl⟩⟩

/-! ## Many values -/

variable {read : Reader α}

theorem takes_many {write : α → List UInt8} :
    ∀ {items : List α}, (∀ a ∈ items, read.Takes (write a) a) →
      (many read items.length).Takes (items.flatMap write) items
  | [], _ => .pure []
  | a :: items, h => by
    have hrest := takes_many fun a' ha' => h a' (List.mem_cons_of_mem a ha')
    exact (h a List.mem_cons_self).bind (hrest.bind_nil (.pure (a :: items)))

theorem takes_many_sequence {write : α → Written} :
    ∀ {items : List α} {bytes : List UInt8}, Frame.sequence (items.map write) = .ok bytes →
      (∀ a ∈ items, ∀ b, write a = .ok b → read.Takes b a) →
      (many read items.length).Takes bytes items
  | [], bytes, hbytes, _ => by
    obtain rfl := Except.ok.inj hbytes
    exact .pure []
  | a :: items, bytes, hbytes, h => by
    obtain ⟨head, tail, hhead, htail, rfl⟩ := Frame.sequence_cons_eq_ok.mp hbytes
    have hrest := takes_many_sequence htail fun a' ha' => h a' (List.mem_cons_of_mem a ha')
    exact (h a List.mem_cons_self head hhead).bind (hrest.bind_nil (.pure (a :: items)))

/-- As many values are read as asked for, and each is as the reader gives it. -/
theorem many_inv {P : α → Prop} (h : ∀ {input a rest}, read input = .ok (a, rest) → P a) :
    ∀ {count : ℕ} {input rest : List UInt8} {items : List α},
      many read count input = .ok (items, rest) → items.length = count ∧ ∀ a ∈ items, P a
  | 0, _, _, _, hmany => by
    cases hmany
    exact ⟨rfl, by simp⟩
  | count + 1, input, rest, items, hmany => by
    obtain ⟨a, mid, ha, hmany⟩ := bind_inv hmany
    obtain ⟨items, mid', hitems, hpure⟩ := bind_inv hmany
    cases hpure
    obtain ⟨hlength, hP⟩ := many_inv h hitems
    exact ⟨congrArg (· + 1) hlength, List.forall_mem_cons.mpr ⟨h ha, hP⟩⟩

/-- If the values of a reader say what was read, so do lists of them. -/
theorem eq_flatMap_of_many {write : α → List UInt8}
    (h : ∀ {input a rest}, read input = .ok (a, rest) → input = write a ++ rest) :
    ∀ {count : ℕ} {input rest : List UInt8} {items : List α},
      many read count input = .ok (items, rest) → input = items.flatMap write ++ rest
  | 0, _, _, _, hmany => by
    cases hmany
    rfl
  | count + 1, input, rest, items, hmany => by
    obtain ⟨a, mid, ha, hmany⟩ := bind_inv hmany
    obtain ⟨items, mid', hitems, hpure⟩ := bind_inv hmany
    cases hpure
    rw [h ha, eq_flatMap_of_many h hitems, List.flatMap_cons, List.append_assoc]

end Reader

end AttributeEncryption
