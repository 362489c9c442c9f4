import AttributeEncryption.Proofs.Runs
import AttributeEncryption.Proofs.Wire.Matrix
import AttributeEncryption.Suite

/-!
# Sequences of frames

Values are written one after the other to the end of a buffer (`Writer`), each word as soon as it
is known, so a refused length may come after words that are in the buffer already. What a writer
leaves in the buffer is what the frame of its value says (`Writer.Follows`). A value whose length
does not fit a word leaves nothing there, with one exception : the columns of a matrix are counted
after its rows.

Readers that run in turn give the values back and leave what follows. In a part of the bytes they
give the values that lie in it, and the reader of the value that is cut runs out of input
(`framing_delimits_itself`).
-/

namespace AttributeEncryption

/-! ## Writing to a buffer -/

/-- A computation that writes to the end of a buffer and may fail on the way. -/
abbrev Writer := ExceptT Failure (StateM (List UInt8))

namespace Writer

/-- The result of writing to a buffer, and the buffer after it. -/
def on (w : Writer Unit) (buffer : List UInt8) : Except Failure Unit × List UInt8 :=
  StateT.run (ExceptT.run w) buffer

/-- Bytes as they are. -/
def raw (data : List UInt8) : Writer Unit :=
  modify (· ++ data)

/-- An unsigned number. -/
def word (n : UInt32) : Writer Unit :=
  raw (Frame.word n)

/-- A signed number. -/
def signedWord (n : Int32) : Writer Unit :=
  raw (Frame.signedWord n)

/-- A length, which has to fit a word. -/
def length (n : ℕ) : Writer Unit :=
  if n < 2 ^ 32 then word (.ofNat n) else throw (.stream (.lengthTooLarge n))

/-- A byte string after its length. -/
def bytes (data : List UInt8) : Writer Unit := do
  length data.length
  raw data

/-- Items one after the other. -/
def each {α : Type} (write : α → Writer Unit) : List α → Writer Unit
  | [] => return ()
  | a :: items => do
    write a
    each write items

/-- A matrix, word by word. -/
def matrix (m : ShareMatrix) : Writer Unit := do
  length m.rowCount
  length m.columns
  each (each signedWord) m.rows
  length m.columns
  length m.rowCount
  length m.labels.length
  each (fun (id, row) => do word id; length row) m.labels.zipIdx

/-- The writer ends with this result, and adds these bytes to every buffer. -/
def Leaves (w : Writer Unit) (result : Except Failure Unit) (added : List UInt8) : Prop :=
  ∀ buffer, w.on buffer = (result, buffer ++ added)

/-- The writer adds the bytes of the frame. If there is none, a length does not fit a word, and it
fails for the same one. -/
def Follows (w : Writer Unit) : Written → Prop
  | .ok bytes => w.Leaves (.ok ()) bytes
  | .error cause => (∃ n, 2 ^ 32 ≤ n ∧ cause = .stream (.lengthTooLarge n)) ∧
      ∃ added, w.Leaves (.error cause) added

namespace Leaves

variable {w w' : Writer Unit} {result : Except Failure Unit} {added added' : List UInt8}
  {cause : Failure}

theorem raw (data : List UInt8) : (Writer.raw data).Leaves (.ok ()) data :=
  fun _ => rfl

theorem nothing : (return () : Writer Unit).Leaves (.ok ()) [] := fun buffer => by
  rw [List.append_nil]
  rfl

theorem refusal (cause : Failure) : (throw cause : Writer Unit).Leaves (.error cause) [] :=
  fun buffer => by
    rw [List.append_nil]
    rfl

/-- The rule for two writers in a row. -/
theorem andThen (h : w.Leaves (.ok ()) added) (h' : w'.Leaves result added') :
    (w >>= fun _ => w').Leaves result (added ++ added') := by
  intro buffer
  have hw : StateT.run (ExceptT.run w) buffer = (.ok (), buffer ++ added) := h buffer
  unfold on
  rw [run_exceptT_bind, hw, ← List.append_assoc]
  exact h' (buffer ++ added)

/-- After a failure nothing is written. -/
theorem stop (h : w.Leaves (.error cause) added) :
    (w >>= fun _ => w').Leaves (.error cause) added := by
  intro buffer
  have hw : StateT.run (ExceptT.run w) buffer = (.error cause, buffer ++ added) := h buffer
  unfold on
  rw [run_exceptT_bind, hw]

theorem each {α : Type} {write : α → Writer Unit} {bytes : α → List UInt8}
    (h : ∀ a, (write a).Leaves (.ok ()) (bytes a)) :
    ∀ items : List α, (Writer.each write items).Leaves (.ok ()) (items.flatMap bytes)
  | [] => nothing
  | a :: items => (h a).andThen (each h items)

end Leaves

theorem leaves_length {n : ℕ} (h : 2 ^ 32 ≤ n) :
    (length n).Leaves (.error (.stream (.lengthTooLarge n))) [] := by
  unfold length
  rw [if_neg (not_lt.mpr h)]
  exact .refusal _

theorem leaves_bytes {data : List UInt8} (h : 2 ^ 32 ≤ data.length) :
    (bytes data).Leaves (.error (.stream (.lengthTooLarge data.length))) [] :=
  (leaves_length h).stop

/-- The columns of a matrix are refused when its rows are counted already. -/
theorem leaves_matrix {m : ShareMatrix} (hrows : m.rowCount < 2 ^ 32) (h : 2 ^ 32 ≤ m.columns) :
    (matrix m).Leaves (.error (.stream (.lengthTooLarge m.columns)))
      (Frame.word (.ofNat m.rowCount)) := by
  have hcount : (length m.rowCount).Leaves (.ok ()) (Frame.word (.ofNat m.rowCount)) := by
    unfold length
    rw [if_pos hrows]
    exact .raw _
  rw [← List.append_nil (Frame.word _)]
  exact hcount.andThen (leaves_length h).stop

namespace Follows

variable {w w' : Writer Unit} {frame : Written} {frames : List Written}

theorem of_leaves {bytes : List UInt8} (h : w.Leaves (.ok ()) bytes) : w.Follows (.ok bytes) :=
  h

/-- The rule for two writers in a row. -/
theorem cons (h : w.Follows frame) (h' : w'.Follows (Frame.sequence frames)) :
    (w >>= fun _ => w').Follows (Frame.sequence (frame :: frames)) := by
  cases frame with
  | error cause =>
    obtain ⟨hcause, added, h⟩ := h
    exact ⟨hcause, added, h.stop⟩
  | ok head =>
    rw [Frame.sequence, ok_bind]
    cases hframes : Frame.sequence frames with
    | error cause =>
      rw [hframes] at h'
      obtain ⟨hcause, added, h'⟩ := h'
      exact ⟨hcause, head ++ added, Leaves.andThen h h'⟩
    | ok tail =>
      rw [hframes] at h'
      exact Leaves.andThen h h'

theorem nil : (return () : Writer Unit).Follows (Frame.sequence []) :=
  Leaves.nothing

/-- A single frame is a sequence. -/
theorem singleton (h : w.Follows frame) : w.Follows (Frame.sequence [frame]) := by
  cases frame with
  | error cause => exact h
  | ok bytes => rwa [Frame.sequence_singleton_eq_ok.mpr rfl]

theorem each {α : Type} {write : α → Writer Unit} {frame : α → Written}
    (h : ∀ a, (write a).Follows (frame a)) :
    ∀ items : List α, (Writer.each write items).Follows (Frame.sequence (items.map frame))
  | [] => nil
  | a :: items => (h a).cons (each h items)

theorem length (n : ℕ) : (Writer.length n).Follows (Frame.length n) := by
  by_cases h : n < 2 ^ 32
  · unfold Writer.length
    rw [if_pos h, Frame.length_eq_ok.mpr ⟨h, rfl⟩]
    exact Leaves.raw _
  · have hlength : Frame.length n = .error (.stream (.lengthTooLarge n)) := if_neg h
    rw [hlength]
    exact ⟨⟨n, not_lt.mp h, rfl⟩, [], leaves_length (not_lt.mp h)⟩

theorem bytes (data : List UInt8) : (Writer.bytes data).Follows (Frame.bytes data) := by
  by_cases h : data.length < 2 ^ 32
  · have hlength := length data.length
    rw [Frame.length_eq_ok.mpr ⟨h, rfl⟩] at hlength
    rw [Frame.bytes_eq_ok.mpr ⟨h, rfl⟩]
    exact Leaves.andThen hlength (.raw data)
  · have hlength : Frame.length data.length = .error (.stream (.lengthTooLarge data.length)) :=
      if_neg h
    have hbytes : Frame.bytes data = .error (.stream (.lengthTooLarge data.length)) := by
      rw [Frame.bytes, hlength]
      rfl
    rw [hbytes]
    exact ⟨⟨data.length, not_lt.mp h, rfl⟩, [], leaves_bytes (not_lt.mp h)⟩

/-- A matrix is written word by word as its frame says. -/
theorem matrix (m : ShareMatrix) : (Writer.matrix m).Follows m.write := by
  have hentries : (Writer.each (Writer.each signedWord) m.rows).Leaves (.ok ())
      (m.rows.flatMap fun row => row.flatMap Frame.signedWord) :=
    .each (fun row => .each (fun n => .raw (Frame.signedWord n)) row) m.rows
  have hlabel (pair : UInt32 × ℕ) : (do word pair.1; Writer.length pair.2 : Writer Unit).Follows
      (Frame.sequence [.ok (Frame.word pair.1), Frame.length pair.2]) :=
    (of_leaves (.raw (Frame.word pair.1))).cons (length pair.2).singleton
  exact (length _).cons ((length _).cons ((of_leaves hentries).cons ((length _).cons
    ((length _).cons ((length _).cons (each hlabel _))))))

end Follows

end Writer

/-! ## Framed values -/

/-- The kinds of frames. -/
inductive FrameKind (S : Suite) where
  /-- An unsigned number. -/
  | word
  /-- A signed number. -/
  | signedWord
  /-- A length. -/
  | length
  /-- A byte string. -/
  | bytes
  /-- A text. -/
  | text
  /-- A tag that has to be the expected one; `failure` says whose tag it is. -/
  | tag (expected : List UInt8) (failure : TagMismatch → Failure)
  /-- A point of the first group. -/
  | g1
  /-- A point of the second group. -/
  | g2
  /-- A pairing value. -/
  | gt
  /-- A matrix. -/
  | matrix

namespace FrameKind

variable {S : Suite}

/-- The values of a kind. -/
def Value : FrameKind S → Type
  | word => UInt32
  | signedWord => Int32
  | length => ℕ
  | bytes => List UInt8
  | text => String
  | tag _ _ => Unit
  | g1 => S.G1
  | g2 => S.G2
  | gt => S.Gt
  | matrix => ShareMatrix

/-- The frame of a value. -/
def frame : (k : FrameKind S) → k.Value → Written
  | word, n => .ok (Frame.word n)
  | signedWord, n => .ok (Frame.signedWord n)
  | length, n => Frame.length n
  | bytes, data => Frame.bytes data
  | text, s => Frame.text s
  | tag expected _, _ => Frame.bytes expected
  | g1, p => Frame.element S.g1.codec p
  | g2, p => Frame.element S.g2.codec p
  | gt, v => Frame.element S.gt.codec v
  | matrix, m => m.write

/-- Writes a value to a buffer. -/
def put : (k : FrameKind S) → k.Value → Writer Unit
  | word, n => Writer.word n
  | signedWord, n => Writer.signedWord n
  | length, n => Writer.length n
  | bytes, data => Writer.bytes data
  | text, s => Writer.bytes (Utf8.encode s)
  | tag expected _, _ => Writer.bytes expected
  | g1, p => Writer.bytes (S.g1.codec.encode p)
  | g2, p => Writer.bytes (S.g2.codec.encode p)
  | gt, v => Writer.bytes (S.gt.codec.encode v)
  | matrix, m => Writer.matrix m

/-- The length that the frame of a value starts with, if it starts with one. -/
def lead? : (k : FrameKind S) → k.Value → Option ℕ
  | word, _ => none
  | signedWord, _ => none
  | length, n => some n
  | bytes, data => some data.length
  | text, s => some (Utf8.encode s).length
  | tag expected _, _ => some expected.length
  | g1, p => some (S.g1.codec.encode p).length
  | g2, p => some (S.g2.codec.encode p).length
  | gt, v => some (S.gt.codec.encode v).length
  | matrix, m => some m.rowCount

/-- Reads a value. -/
def read : (k : FrameKind S) → Reader k.Value
  | word => Reader.word
  | signedWord => Reader.signedWord
  | length => Reader.length
  | bytes => Reader.bytes
  | text => Reader.text
  | tag expected failure => Reader.tag expected failure
  | g1 => Reader.element S.g1.codec
  | g2 => Reader.element S.g2.codec
  | gt => Reader.element S.gt.codec
  | matrix => ShareMatrix.read

/-- The buffer gets the frame of the value. -/
theorem follows (k : FrameKind S) (v : k.Value) : (k.put v).Follows (k.frame v) := by
  cases k with
  | word => exact Writer.Leaves.raw _
  | signedWord => exact Writer.Leaves.raw _
  | length => exact .length v
  | matrix => exact .matrix v
  | bytes | text | tag | g1 | g2 | gt => exact .bytes _

/-- A value whose length does not fit a word is refused before anything is written. -/
theorem leaves_put {k : FrameKind S} {v : k.Value} {n : ℕ} (hlead : k.lead? v = some n)
    (h : 2 ^ 32 ≤ n) : (k.put v).Leaves (.error (.stream (.lengthTooLarge n))) [] := by
  cases k with
  | word => cases hlead
  | signedWord => cases hlead
  | length =>
    obtain rfl := Option.some.inj hlead
    exact Writer.leaves_length h
  | matrix =>
    obtain rfl := Option.some.inj hlead
    exact (Writer.leaves_length h).stop
  | bytes | text | tag | g1 | g2 | gt =>
    obtain rfl := Option.some.inj hlead
    exact Writer.leaves_bytes h

/-- Writing a value fails only for a length that does not fit a word. -/
theorem put_cases (k : FrameKind S) (v : k.Value) :
    (∃ whole, (k.put v).Leaves (.ok ()) whole) ∨
      ∃ n added, 2 ^ 32 ≤ n ∧ (k.put v).Leaves (.error (.stream (.lengthTooLarge n))) added := by
  have hput := k.follows v
  cases hframe : k.frame v with
  | ok whole =>
    rw [hframe] at hput
    exact Or.inl ⟨whole, hput⟩
  | error cause =>
    rw [hframe] at hput
    obtain ⟨⟨n, hn, rfl⟩, added, hleaves⟩ := hput
    exact Or.inr ⟨n, added, hn, hleaves⟩

/-- The reader of a kind takes the frames of its values. -/
theorem takes (hS : S.Encodes) {k : FrameKind S} {v : k.Value} {bytes : List UInt8}
    (h : k.frame v = .ok bytes) : k.read.Takes bytes v := by
  cases k with
  | word => exact Reader.takes_word_frame h
  | signedWord => exact Except.ok.inj h ▸ Reader.takes_signedWord v
  | length => exact Reader.takes_length h
  | bytes => exact Reader.takes_bytes h
  | text => exact Reader.takes_text h
  | tag expected failure => exact Reader.takes_tag h
  | g1 => exact Reader.takes_element hS.g1 h
  | g2 => exact Reader.takes_element hS.g2 h
  | gt => exact Reader.takes_element hS.gt h
  | matrix => exact ShareMatrix.takes_of_write h

end FrameKind

/-! ## Values in a row -/

variable {S : Suite}

/-- A value with its kind. -/
abbrev Framed (S : Suite) := (k : FrameKind S) × k.Value

namespace Framed

/-- Writes values to a buffer, one after the other. -/
def putAll (values : List (Framed S)) : Writer Unit :=
  Writer.each (fun v => v.1.put v.2) values

/-- Runs the readers of these kinds, one after the other : the values up to the first one that
cannot be read, and what is left of the input, or the failure. -/
def readInTurn : List (FrameKind S) → List UInt8 → List (Framed S) × Except Failure (List UInt8)
  | [], input => ([], .ok input)
  | k :: kinds, input =>
    match k.read input with
    | .error cause => ([], .error cause)
    | .ok (v, rest) =>
      let (values, result) := readInTurn kinds rest
      (⟨k, v⟩ :: values, result)

/-- The frames of values. -/
def frames (values : List (Framed S)) : Written :=
  Frame.sequence (values.map fun v => v.1.frame v.2)

theorem follows_putAll (values : List (Framed S)) : (putAll values).Follows (frames values) :=
  .each (fun v => v.1.follows v.2) values

/-- What is in the buffer is the frames of the values. -/
theorem frames_of_putAll {values : List (Framed S)} {buffer written : List UInt8}
    (h : (putAll values).on buffer = (.ok (), written)) :
    ∃ bytes, frames values = .ok bytes ∧ written = buffer ++ bytes := by
  have hfollows := follows_putAll values
  cases hframes : frames values with
  | error cause =>
    rw [hframes] at hfollows
    obtain ⟨-, added, hleaves⟩ := hfollows
    cases (hleaves buffer).symm.trans h
  | ok bytes =>
    rw [hframes] at hfollows
    exact ⟨bytes, rfl, (congrArg Prod.snd ((hfollows buffer).symm.trans h)).symm⟩

theorem readInTurn_cons_of_ok {k : FrameKind S} {v : k.Value} {input rest : List UInt8}
    (h : k.read input = .ok (v, rest)) (kinds : List (FrameKind S)) :
    readInTurn (k :: kinds) input =
      (⟨k, v⟩ :: (readInTurn kinds rest).1, (readInTurn kinds rest).2) := by
  rw [readInTurn, h]

/-- The values come back, and what follows is left. -/
theorem readInTurn_frames (hS : S.Encodes) :
    ∀ {values : List (Framed S)} {bytes : List UInt8}, frames values = .ok bytes → ∀ rest,
      readInTurn (values.map Sigma.fst) (bytes ++ rest) = (values, .ok rest)
  | [], bytes, h, rest => by
    obtain rfl := Except.ok.inj h
    rfl
  | v :: values, bytes, h, rest => by
    obtain ⟨head, tail, hhead, htail, rfl⟩ := Frame.sequence_cons_eq_ok.mp h
    have hread := (FrameKind.takes hS hhead).append (tail ++ rest)
    rw [List.append_assoc, List.map_cons, readInTurn_cons_of_ok hread,
      readInTurn_frames hS htail rest]

/-- In a part of the frames the values before the cut come back, and the value that is cut is too
short. -/
theorem readInTurn_of_cut (hS : S.Encodes) :
    ∀ {values : List (Framed S)} {bytes part : List UInt8}, frames values = .ok bytes →
      part <+: bytes → part ≠ bytes →
      ∃ before v after done whole cut shortage, values = before ++ v :: after ∧
        frames before = .ok done ∧ v.1.frame v.2 = .ok whole ∧ part = done ++ cut ∧
        cut <+: whole ∧ cut ≠ whole ∧
        readInTurn (values.map Sigma.fst) part =
          (before, .error (.stream (.unexpectedEnd shortage)))
  | [], bytes, part, h, hpart, hne => by
    obtain rfl := Except.ok.inj h
    exact absurd (List.prefix_nil.mp hpart) hne
  | v :: values, bytes, part, h, hpart, hne => by
    obtain ⟨head, tail, hhead, htail, rfl⟩ := Frame.sequence_cons_eq_ok.mp h
    have htakes := FrameKind.takes hS hhead
    by_cases hfirst : head <+: part
    · obtain ⟨rest, rfl⟩ := hfirst
      obtain ⟨before, u, after, done, whole, cut, shortage, rfl, hdone, hwhole, rfl, hcut, hcut',
        hread⟩ := readInTurn_of_cut hS htail ((List.prefix_append_right_inj head).mp hpart)
          fun heq => hne (congrArg _ heq)
      refine ⟨v :: before, u, after, head ++ done, whole, cut, shortage, rfl, ?_, hwhole,
        (List.append_assoc ..).symm, hcut, hcut', ?_⟩
      · exact Frame.sequence_cons_eq_ok.mpr ⟨head, done, hhead, hdone, rfl⟩
      · rw [List.map_cons, readInTurn_cons_of_ok (htakes.append _), hread]
    · have hshort : part <+: head :=
        (List.prefix_or_prefix_of_prefix hpart (List.prefix_append _ _)).resolve_right hfirst
      have hne' : part ≠ head := fun heq => hfirst (heq ▸ List.prefix_rfl)
      obtain ⟨cause, hread, shortage, rfl⟩ := htakes.cut hshort hne'
      refine ⟨[], v, values, [], head, part, shortage, rfl, rfl, hhead, rfl, hshort, hne', ?_⟩
      rw [List.map_cons, readInTurn, hread]

end Framed

/-! ## Byte strings of any input -/

namespace Reader

/-- The first four bytes are a length. -/
theorem length_of_le {input : List UInt8} (h : 4 ≤ input.length) :
    length input = .ok (ofBigEndian (input.take 4), input.drop 4) := by
  obtain ⟨a, b, c, d, hhead⟩ :=
    List.length_eq_four.mp (List.length_take_of_le h : (input.take 4).length = 4)
  have hinput : input = a :: b :: c :: d :: input.drop 4 := by
    rw [← List.take_append_drop 4 input, hhead]
    rfl
  have hlt : ofBigEndian [a, b, c, d] < 256 ^ 4 := ofBigEndian_lt [a, b, c, d]
  have hword : word input = .ok (.ofNat (ofBigEndian [a, b, c, d]), input.drop 4) := by
    rw [hinput]
    rfl
  rw [length, run_bind_ok hword, hhead]
  exact congrArg (fun n => Except.ok (n, input.drop 4)) (UInt32.toNat_ofNat_of_lt' hlt)

theorem length_of_lt {input : List UInt8} (h : input.length < 4) :
    length input = .error (.stream (.unexpectedEnd .fixedWidth)) := by
  refine run_bind_error ?_ _
  unfold word
  split
  · simp only [List.length_cons] at h
    omega
  · rfl

/-- A byte string can be read exactly if as many bytes follow the first four as they say. -/
theorem bytes_cases (input : List UInt8) :
    ((4 ≤ input.length ∧ 4 + ofBigEndian (input.take 4) ≤ input.length) ∧
      bytes input = .ok ((input.drop 4).take (ofBigEndian (input.take 4)),
        input.drop (4 + ofBigEndian (input.take 4)))) ∨
      ¬ (4 ≤ input.length ∧ 4 + ofBigEndian (input.take 4) ≤ input.length) ∧
        ∃ shortage, bytes input = .error (.stream (.unexpectedEnd shortage)) := by
  rw [bytes_eq]
  by_cases hhead : 4 ≤ input.length
  · rw [run_bind_ok (length_of_le hhead), advertised, List.length_drop]
    split_ifs with hdata
    · refine Or.inl ⟨⟨hhead, by omega⟩, ?_⟩
      rw [List.drop_drop]
    · exact Or.inr ⟨fun h => hdata (by omega), _, rfl⟩
  · refine Or.inr ⟨fun h => hhead h.1, .fixedWidth, ?_⟩
    exact run_bind_error (length_of_lt (not_le.mp hhead)) _

end Reader

/-! ## Framing -/

/-- There are matrices of any width. -/
theorem ShareMatrix.exists_columns_eq {n : ℕ} (hn : 0 < n) :
    ∃ m : ShareMatrix, m.rowCount = 1 ∧ m.columns = n :=
  ⟨{ rows := [List.replicate n 0], labels := [0]
     width_pos := by rwa [width, List.length_replicate]
     rectangular := fun row hrow => by rw [List.mem_singleton.mp hrow, width]
     labels_length := rfl
     labels_nodup := List.nodup_singleton 0 }, rfl, List.length_replicate⟩

/-- Values that were written one after the other are read back by the readers of their kinds, with
exactly the bytes that follow left over. In a part of what was written the values before the cut are
read, and then the input ends in the value that is cut. A byte string can be read from any input
that is as long as its first four bytes say, and from no other. Writing fails only for a length that
does not fit a word, and such a length is refused before a byte of its value is written; only the
columns of a matrix are counted after its rows, and refused after the word for these. -/
theorem framing_delimits_itself (hS : S.Encodes) :
    (∀ (values : List (Framed S)) (written : List UInt8),
      (Framed.putAll values).on [] = (.ok (), written) →
        (∀ rest, Framed.readInTurn (values.map Sigma.fst) (written ++ rest) =
          (values, .ok rest)) ∧
        ∀ part, part <+: written → part ≠ written →
          ∃ before v after done whole cut shortage, values = before ++ v :: after ∧
            (Framed.putAll before).on [] = (.ok (), done) ∧
            (v.1.put v.2).on done = (.ok (), done ++ whole) ∧
            part = done ++ cut ∧ cut <+: whole ∧ cut ≠ whole ∧
            Framed.readInTurn (values.map Sigma.fst) part =
              (before, .error (.stream (.unexpectedEnd shortage)))) ∧
    (∀ input : List UInt8,
      ((4 ≤ input.length ∧ 4 + ofBigEndian (input.take 4) ≤ input.length) ∧
        Reader.bytes input = .ok ((input.drop 4).take (ofBigEndian (input.take 4)),
          input.drop (4 + ofBigEndian (input.take 4)))) ∨
        ¬ (4 ≤ input.length ∧ 4 + ofBigEndian (input.take 4) ≤ input.length) ∧
          ∃ shortage, Reader.bytes input = .error (.stream (.unexpectedEnd shortage))) ∧
    (∀ (k : FrameKind S) (v : k.Value),
      (∃ whole, ∀ buffer, (k.put v).on buffer = (.ok (), buffer ++ whole)) ∨
        ∃ n added, 2 ^ 32 ≤ n ∧ ∀ buffer,
          (k.put v).on buffer = (.error (.stream (.lengthTooLarge n)), buffer ++ added)) ∧
    (∀ (k : FrameKind S) (v : k.Value) (n : ℕ), k.lead? v = some n → 2 ^ 32 ≤ n →
      ∀ buffer, (k.put v).on buffer = (.error (.stream (.lengthTooLarge n)), buffer)) ∧
    ∀ m : ShareMatrix, m.rowCount < 2 ^ 32 → 2 ^ 32 ≤ m.columns →
      ∀ buffer, (Writer.matrix m).on buffer =
        (.error (.stream (.lengthTooLarge m.columns)),
          buffer ++ Frame.word (.ofNat m.rowCount)) := by
  refine ⟨fun values written hwritten => ?_, Reader.bytes_cases, FrameKind.put_cases,
    fun k v n hlead hn buffer => ?_, fun m => Writer.leaves_matrix⟩
  · obtain ⟨bytes, hframes, rfl⟩ := Framed.frames_of_putAll hwritten
    refine ⟨Framed.readInTurn_frames hS hframes, fun part hpart hne => ?_⟩
    obtain ⟨before, v, after, done, whole, cut, shortage, hvalues, hdone, hwhole, rest⟩ :=
      Framed.readInTurn_of_cut hS hframes hpart hne
    have hbefore := Framed.follows_putAll before
    rw [hdone] at hbefore
    have hput := v.1.follows v.2
    rw [hwhole] at hput
    exact ⟨before, v, after, done, whole, cut, shortage, hvalues, hbefore [], hput done, rest⟩
  · have hput := FrameKind.leaves_put hlead hn buffer
    rwa [List.append_nil] at hput

/-- A number, a text of one character, a point and a matrix in a row, with one more byte behind them
or cut within the character, a byte string that is followed by another byte, and lengths that do not
fit. -/
theorem mixed_frames_delimited :
    ∃ (values : List (Framed exponents)) (written : List UInt8) (wide : ShareMatrix),
      values.map Sigma.fst = [.signedWord, .text, .g1, .matrix] ∧
      (Framed.putAll values).on [] = (.ok (), written) ∧
      Framed.readInTurn (values.map Sigma.fst) (written ++ [1]) = (values, .ok [1]) ∧
      (∃ shortage, Framed.readInTurn (values.map Sigma.fst) (written.take 9) =
        (values.take 1, .error (.stream (.unexpectedEnd shortage)))) ∧
      Reader.bytes [0, 0, 0, 2, 8, 9, 1] = .ok ([8, 9], [1]) ∧
      (Writer.length (2 ^ 32)).on [5] = (.error (.stream (.lengthTooLarge (2 ^ 32))), [5]) ∧
      (Writer.matrix wide).on [5] =
        (.error (.stream (.lengthTooLarge (2 ^ 32))), [5, 0, 0, 0, 1]) := by
  let narrow : ShareMatrix :=
    { rows := [[1, -1]], labels := [7]
      width_pos := by decide
      rectangular := by decide
      labels_length := rfl
      labels_nodup := by decide }
  let values : List (Framed exponents) :=
    [⟨.signedWord, (-1 : Int32)⟩, ⟨.text, "é"⟩, ⟨.g1, (5 : Scalar)⟩, ⟨.matrix, narrow⟩]
  let written := ((Framed.putAll values).on []).2
  obtain ⟨wide, hrows, hwide⟩ : ∃ m : ShareMatrix, m.rowCount = 1 ∧ m.columns = 2 ^ 32 :=
    ShareMatrix.exists_columns_eq (by decide)
  obtain ⟨hsequences, hbytes, -, hlengths, hcolumns⟩ := framing_delimits_itself encodes_exponents
  have hwritten : (Framed.putAll values).on [] = (.ok (), written) :=
    Prod.ext (by decide +kernel) rfl
  obtain ⟨hback, hcut⟩ := hsequences values written hwritten
  refine ⟨values, written, wide, rfl, hwritten, hback [1], ?_, ?_,
    hlengths .length (2 ^ 32 : ℕ) (2 ^ 32) rfl le_rfl [5], ?_⟩
  · have hne : written.take 9 ≠ written := by decide +kernel
    obtain ⟨before, v, after, -, -, -, shortage, hvalues, -, -, -, -, -, hread⟩ :=
      hcut (written.take 9) (List.take_prefix ..) hne
    have hlength :
        (Framed.readInTurn (values.map Sigma.fst) (written.take 9)).1.length = 1 := by
      decide +kernel
    rw [hread] at hlength
    have hbefore : values.take 1 = before := by rw [hvalues, List.take_left' hlength]
    exact ⟨shortage, hbefore ▸ hread⟩
  · exact ((hbytes [0, 0, 0, 2, 8, 9, 1]).resolve_right fun h => h.1 (by decide)).2
  · have hrefused := hcolumns wide (by rw [hrows]; decide) hwide.ge [5]
    rwa [hwide, hrows] at hrefused

end AttributeEncryption
