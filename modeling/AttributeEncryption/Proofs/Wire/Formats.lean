import AttributeEncryption.Proofs.Wire.Entries
import AttributeEncryption.Proofs.Wire.Matrix

/-!
# Formats of stored objects

A `Format` writes and reads the objects of one type, and says which of them reading accepts. For
matrices, parameters, keys and ciphertexts, reading takes exactly what an accepted object is
written as (`Format.Faithful`), and whatever was read is accepted and can be written again, from
whatever bytes it came (`Format.Rewrites`).
-/

namespace AttributeEncryption

/-- How objects are written and read, and which of them reading accepts. -/
structure Format (α : Type) where
  /-- The frames of an object. -/
  write : α → Written
  /-- Reads an object. -/
  read : Reader α
  /-- Reading accepts the object. -/
  Accepts : α → Prop

namespace Format

variable {α : Type}

/-- Reading takes what an accepted object is written as. -/
def Faithful (f : Format α) : Prop :=
  ∀ a bytes, f.Accepts a → f.write a = .ok bytes → f.read.Takes bytes a

/-- What was read is accepted, and can be written. -/
def Rewrites (f : Format α) : Prop :=
  ∀ a input rest, f.read input = .ok (a, rest) →
    f.Accepts a ∧ ∃ bytes, f.write a = .ok bytes

end Format

/-- The tag of the scheme can be written. -/
theorem exists_tag : ∃ bytes, Frame.bytes schemeTag = .ok bytes :=
  ⟨_, Frame.bytes_eq_ok.mpr ⟨by decide, rfl⟩⟩

variable {S : Suite}

/-! ## Matrices -/

/-- The format of matrices. -/
def ShareMatrix.format : Format ShareMatrix where
  write := ShareMatrix.write
  read := ShareMatrix.read
  Accepts _ := True

theorem ShareMatrix.faithful_format : ShareMatrix.format.Faithful :=
  fun _ _ _ => takes_of_write

/-! ## Public parameters -/

namespace PublicParameters

/-- The format of public parameters. -/
def format (S : Suite) : Format (PublicParameters S) where
  write := write
  read := read S
  Accepts _ := True

theorem ofBits?_bits (level : SecurityLevel) : SecurityLevel.ofBits? level.bits = some level := by
  rw [SecurityLevel.ofBits?, dif_pos ⟨level.pos, level.le⟩]

theorem takes_attribute (hS : S.Encodes) {entry : UInt32 × Attribute S.G1} {bytes : List UInt8}
    (h : writeAttribute entry = .ok bytes) : (readAttribute S).Takes bytes entry := by
  refine .bind_frame h Reader.takes_text fun h => .bind_frame h Reader.takes_word_frame fun h => ?_
  refine .bind_frame h (Reader.takes_element hS.g1) fun h => ?_
  cases h
  exact .pure entry

theorem takes_frames (hS : S.Encodes) {pp : PublicParameters S} {bytes : List UInt8}
    (h : pp.write = .ok bytes) :
    (readFrames S).Takes bytes
      ({ pp with registry := .empty }, pp.registry.attributes.entries) := by
  refine .bind_frame h Reader.takes_tag fun h => .bind_frame h Reader.takes_word_frame fun h => ?_
  simp only [ofBits?_bits]
  refine .bind_frame h Reader.takes_text fun h => .of_not (not_not.mpr rfl) ?_
  refine .bind_frame h (Reader.takes_element hS.g1) fun h => ?_
  refine .bind_frame h (Reader.takes_element hS.g2) fun h => ?_
  refine .bind_frame h (Reader.takes_element hS.g1) fun h => ?_
  refine .bind_frame h (Reader.takes_element hS.gt) fun h => ?_
  refine .bind_frame h Reader.takes_length fun h => ?_
  exact (Reader.takes_many_sequence h fun entry _ b hb => takes_attribute hS hb).bind_nil (.pure _)

theorem faithful_format (hS : S.Encodes) : (format S).Faithful := by
  intro pp bytes _ h
  have hregistry : Registry.empty.ofStored pp.registry.attributes.entries = .ok pp.registry :=
    Registry.ofStored_eq rfl
  exact (takes_frames hS h).bind_nil ((Reader.Takes.check hregistry).bind_nil (.pure pp))

theorem exists_attribute (hS : S.Encodes) {entry : UInt32 × Attribute S.G1}
    {input rest : List UInt8} (h : readAttribute S input = .ok (entry, rest)) :
    ∃ bytes, writeAttribute entry = .ok bytes := by
  obtain ⟨name, mid₁, hname, h₁⟩ := Reader.bind_inv h
  obtain ⟨id, mid₂, -, h₂⟩ := Reader.bind_inv h₁
  obtain ⟨point, mid₃, hpoint, hpure⟩ := Reader.bind_inv h₂
  cases hpure
  refine Frame.exists_sequence_cons (Reader.exists_text hname) ?_
  refine Frame.exists_sequence_cons ⟨_, rfl⟩ ?_
  exact Frame.exists_sequence_cons (Reader.exists_element hS.g1 hpoint _) Frame.exists_sequence_nil

/-- The pairing that parameters are made for can be written. -/
theorem exists_description : ∃ bytes, Frame.text pairingDescription = .ok bytes :=
  ⟨_, Frame.bytes_eq_ok.mpr ⟨by decide, rfl⟩⟩

/-- If frames were read, then there are no more attributes than can be counted, and elements and
attributes can be written. -/
theorem frames_inv (hS : S.Encodes) {pp : PublicParameters S}
    {stored : List (UInt32 × Attribute S.G1)} {input rest : List UInt8}
    (h : readFrames S input = .ok ((pp, stored), rest)) :
    (∀ p, ∃ b, Frame.element S.g1.codec p = .ok b) ∧
      (∀ p, ∃ b, Frame.element S.g2.codec p = .ok b) ∧
      (∀ v, ∃ b, Frame.element S.gt.codec v = .ok b) ∧ stored.length < 2 ^ 32 ∧
      ∀ entry ∈ stored, ∃ b, writeAttribute entry = .ok b := by
  obtain ⟨_, mid₁, -, h₁⟩ := Reader.bind_inv h
  obtain ⟨bits, mid₂, -, h₂⟩ := Reader.bind_inv h₁
  cases hlevel : SecurityLevel.ofBits? bits with
  | none =>
    simp only [hlevel] at h₂
    cases h₂
  | some level =>
    simp only [hlevel] at h₂
    obtain ⟨description, mid₃, -, h₃⟩ := Reader.bind_inv h₂
    split_ifs at h₃
    · cases h₃
    obtain ⟨g1, mid₄, hg1, h₄⟩ := Reader.bind_inv h₃
    obtain ⟨g2, mid₅, hg2, h₅⟩ := Reader.bind_inv h₄
    obtain ⟨g1a, mid₆, -, h₆⟩ := Reader.bind_inv h₅
    obtain ⟨blinding, mid₇, hblinding, h₇⟩ := Reader.bind_inv h₆
    obtain ⟨count, mid₈, hcount, h₈⟩ := Reader.bind_inv h₇
    obtain ⟨attributes, mid₉, hattributes, hpure⟩ := Reader.bind_inv h₈
    cases hpure
    obtain ⟨hlength, hentries⟩ := Reader.many_inv (exists_attribute hS) hattributes
    exact ⟨Reader.exists_element hS.g1 hg1, Reader.exists_element hS.g2 hg2,
      Reader.exists_element hS.gt hblinding, hlength ▸ Reader.length_lt hcount, hentries⟩

theorem rewrites_format (hS : S.Encodes) : (format S).Rewrites := by
  intro pp input rest h
  obtain ⟨⟨frames, stored⟩, mid, hframes, h₁⟩ := Reader.bind_inv h
  obtain ⟨registry, mid', hregistry, hpure⟩ := Reader.bind_inv h₁
  cases hpure
  obtain ⟨hg1, hg2, hgt, hlength, hattributes⟩ := frames_inv hS hframes
  have hperm := Registry.perm_ofStored (Reader.check_inv hregistry).1
  have hempty : (Registry.empty : Registry S.G1).attributes.entries = [] := rfl
  rw [hempty, List.append_nil] at hperm
  have hsize : registry.size < 2 ^ 32 := hperm.length_eq.trans_lt hlength
  refine ⟨trivial, Frame.exists_sequence_cons exists_tag ?_⟩
  refine Frame.exists_sequence_cons ⟨_, rfl⟩ (Frame.exists_sequence_cons exists_description ?_)
  refine Frame.exists_sequence_cons (hg1 _) (Frame.exists_sequence_cons (hg2 _) ?_)
  refine Frame.exists_sequence_cons (hg1 _) (Frame.exists_sequence_cons (hgt _) ?_)
  refine Frame.exists_sequence_cons ⟨_, Frame.length_eq_ok.mpr ⟨hsize, rfl⟩⟩ ?_
  exact Frame.exists_sequence_map fun entry hentry =>
    hattributes entry (hperm.mem_iff.mp hentry)

end PublicParameters

/-! ## Keys -/

namespace MasterKey

/-- The format of master keys under some parameters. -/
def format (pp : PublicParameters S) : Format (MasterKey S) where
  write := write
  read := read pp
  Accepts msk := pp.checkMasterKey msk = .ok ()

theorem faithful_format (hS : S.Encodes) (pp : PublicParameters S) : (format pp).Faithful := by
  intro msk bytes hcheck h
  refine .bind_frame h Reader.takes_tag fun h => ?_
  refine .bind_frame h (Reader.takes_element hS.g1) fun h => ?_
  cases h
  exact (Reader.Takes.check hcheck).bind_nil (.pure msk)

theorem accepts_of_read {pp : PublicParameters S} {msk : MasterKey S} {input rest : List UInt8}
    (h : read pp input = .ok (msk, rest)) : (format pp).Accepts msk := by
  obtain ⟨_, mid₁, -, h₁⟩ := Reader.bind_inv h
  obtain ⟨point, mid₂, -, h₂⟩ := Reader.bind_inv h₁
  obtain ⟨_, mid₃, hcheck, hpure⟩ := Reader.bind_inv h₂
  cases hpure
  exact (Reader.check_inv hcheck).1

theorem exists_write (hS : S.Encodes) {pp : PublicParameters S} {msk : MasterKey S}
    {input rest : List UInt8} (h : read pp input = .ok (msk, rest)) :
    ∃ bytes, msk.write = .ok bytes := by
  obtain ⟨_, mid₁, -, h₁⟩ := Reader.bind_inv h
  obtain ⟨point, mid₂, hpoint, -⟩ := Reader.bind_inv h₁
  refine Frame.exists_sequence_cons exists_tag ?_
  exact Frame.exists_sequence_cons (Reader.exists_element hS.g1 hpoint _) Frame.exists_sequence_nil

theorem rewrites_format (hS : S.Encodes) (pp : PublicParameters S) : (format pp).Rewrites :=
  fun _ _ _ h => ⟨accepts_of_read h, exists_write hS h⟩

end MasterKey

namespace PrivateKey

/-- The format of private keys under some parameters. -/
def format (pp : PublicParameters S) : Format (PrivateKey S) where
  write := write
  read := read pp
  Accepts sk := pp.checkPrivateKey sk = .ok ()

theorem faithful_format (hS : S.Encodes) (pp : PublicParameters S) : (format pp).Faithful := by
  intro sk bytes hcheck h
  refine .bind_frame h Reader.takes_tag fun h => ?_
  refine .bind_frame h (Reader.takes_element hS.g1) fun h => ?_
  refine .bind_frame h (Reader.takes_element hS.g2) fun h => ?_
  refine .bind_frame h Reader.takes_length fun h => ?_
  refine (takes_readComponents hS rfl h).bind_nil ?_
  exact (Reader.Takes.check hcheck).bind_nil (.pure sk)

theorem accepts_of_read {pp : PublicParameters S} {sk : PrivateKey S} {input rest : List UInt8}
    (h : read pp input = .ok (sk, rest)) : (format pp).Accepts sk := by
  obtain ⟨_, mid₁, -, h₁⟩ := Reader.bind_inv h
  obtain ⟨k, mid₂, -, h₂⟩ := Reader.bind_inv h₁
  obtain ⟨l, mid₃, -, h₃⟩ := Reader.bind_inv h₂
  obtain ⟨count, mid₄, -, h₄⟩ := Reader.bind_inv h₃
  obtain ⟨components, mid₅, -, h₅⟩ := Reader.bind_inv h₄
  obtain ⟨_, mid₆, hcheck, hpure⟩ := Reader.bind_inv h₅
  cases hpure
  exact (Reader.check_inv hcheck).1

theorem exists_write (hS : S.Encodes) {pp : PublicParameters S} {sk : PrivateKey S}
    {input rest : List UInt8} (h : read pp input = .ok (sk, rest)) :
    ∃ bytes, sk.write = .ok bytes := by
  obtain ⟨_, mid₁, -, h₁⟩ := Reader.bind_inv h
  obtain ⟨k, mid₂, hk, h₂⟩ := Reader.bind_inv h₁
  obtain ⟨l, mid₃, hl, h₃⟩ := Reader.bind_inv h₂
  obtain ⟨count, mid₄, hcount, h₄⟩ := Reader.bind_inv h₃
  obtain ⟨components, mid₅, hcomponents, h₅⟩ := Reader.bind_inv h₄
  obtain ⟨_, mid₆, -, hpure⟩ := Reader.bind_inv h₅
  cases hpure
  have hsize : components.size = count := by
    rw [size_of_readComponents hcomponents]
    exact Nat.zero_add count
  have hg1 := Reader.exists_element hS.g1 hk
  refine Frame.exists_sequence_cons exists_tag (Frame.exists_sequence_cons (hg1 k) ?_)
  refine Frame.exists_sequence_cons (Reader.exists_element hS.g2 hl l) ?_
  refine Frame.exists_sequence_cons (hsize ▸ Reader.exists_length hcount) ?_
  exact Frame.exists_sequence_map fun entry _ => Frame.exists_sequence_cons ⟨_, rfl⟩
    (Frame.exists_sequence_cons (hg1 entry.2) Frame.exists_sequence_nil)

theorem rewrites_format (hS : S.Encodes) (pp : PublicParameters S) : (format pp).Rewrites :=
  fun _ _ _ h => ⟨accepts_of_read h, exists_write hS h⟩

end PrivateKey

/-! ## Headers and ciphertexts -/

theorem PublicParameters.length_pairs_of_checkHeader {pp : PublicParameters S} {h : Header S}
    (hcheck : pp.checkHeader h = .ok ()) : h.pairs.length = h.matrix.rowCount := by
  unfold checkHeader at hcheck
  split_ifs at hcheck with hlength
  · exact hlength

namespace Header

theorem takes_pair (hS : S.Encodes) {pair : S.G1 × S.G2} {bytes : List UInt8}
    (h : writePair pair = .ok bytes) : (readPair S).Takes bytes pair := by
  refine .bind_frame h (Reader.takes_element hS.g1) fun h => ?_
  refine .bind_frame h (Reader.takes_element hS.g2) fun h => ?_
  cases h
  exact .pure pair

theorem takes_of_write (hS : S.Encodes) {header : Header S} {bytes : List UInt8}
    (hlength : header.pairs.length = header.matrix.rowCount) (h : header.write = .ok bytes) :
    (read S).Takes bytes header := by
  refine .bind_frame h ShareMatrix.takes_of_write fun h => ?_
  refine .bind_frame h (Reader.takes_element hS.g2) fun h => ?_
  refine .bind_frame h Reader.takes_length fun h => .of_not (not_not.mpr hlength) ?_
  exact (Reader.takes_many_sequence h fun pair _ b hb => takes_pair hS hb).bind_nil (.pure header)

theorem exists_pair (hS : S.Encodes) {pair : S.G1 × S.G2} {input rest : List UInt8}
    (h : readPair S input = .ok (pair, rest)) : ∃ bytes, writePair pair = .ok bytes := by
  obtain ⟨c, mid₁, hc, h₁⟩ := Reader.bind_inv h
  obtain ⟨d, mid₂, hd, hpure⟩ := Reader.bind_inv h₁
  cases hpure
  refine Frame.exists_sequence_cons (Reader.exists_element hS.g1 hc c) ?_
  exact Frame.exists_sequence_cons (Reader.exists_element hS.g2 hd d) Frame.exists_sequence_nil

theorem exists_write (hS : S.Encodes) {header : Header S} {input rest : List UInt8}
    (h : read S input = .ok (header, rest)) : ∃ bytes, header.write = .ok bytes := by
  obtain ⟨matrix, mid₁, hmatrix, h₁⟩ := Reader.bind_inv h
  obtain ⟨base, mid₂, hbase, h₂⟩ := Reader.bind_inv h₁
  obtain ⟨count, mid₃, hcount, h₃⟩ := Reader.bind_inv h₂
  split_ifs at h₃
  · cases h₃
  obtain ⟨pairs, mid₄, hpairs, hpure⟩ := Reader.bind_inv h₃
  cases hpure
  obtain ⟨hlength, hwritten⟩ := Reader.many_inv (exists_pair hS) hpairs
  refine Frame.exists_sequence_cons (ShareMatrix.exists_write hmatrix) ?_
  refine Frame.exists_sequence_cons (Reader.exists_element hS.g2 hbase base) ?_
  refine Frame.exists_sequence_cons (hlength ▸ Reader.exists_length hcount) ?_
  exact Frame.exists_sequence_map hwritten

end Header

namespace Ciphertext

/-- The format of ciphertexts under some parameters. -/
def format (pp : PublicParameters S) : Format (Ciphertext S) where
  write := write
  read := read pp
  Accepts ct := pp.checkHeader ct.header = .ok ()

theorem faithful_format (hS : S.Encodes) (pp : PublicParameters S) : (format pp).Faithful := by
  intro ct bytes hcheck h
  have hlength := PublicParameters.length_pairs_of_checkHeader hcheck
  refine .bind_frame h Reader.takes_tag fun h => ?_
  refine .bind_frame h (Header.takes_of_write hS hlength) fun h => ?_
  have hcontent := Reader.takes_bytes (Frame.sequence_singleton_eq_ok.mp h)
  exact (Reader.Takes.check hcheck).bind (hcontent.bind_nil (.pure ct))

theorem accepts_of_read {pp : PublicParameters S} {ct : Ciphertext S} {input rest : List UInt8}
    (h : read pp input = .ok (ct, rest)) : (format pp).Accepts ct := by
  obtain ⟨_, mid₁, -, h₁⟩ := Reader.bind_inv h
  obtain ⟨header, mid₂, -, h₂⟩ := Reader.bind_inv h₁
  obtain ⟨_, mid₃, hcheck, h₃⟩ := Reader.bind_inv h₂
  obtain ⟨content, mid₄, -, hpure⟩ := Reader.bind_inv h₃
  cases hpure
  exact (Reader.check_inv hcheck).1

theorem exists_write (hS : S.Encodes) {pp : PublicParameters S} {ct : Ciphertext S}
    {input rest : List UInt8} (h : read pp input = .ok (ct, rest)) :
    ∃ bytes, ct.write = .ok bytes := by
  obtain ⟨_, mid₁, -, h₁⟩ := Reader.bind_inv h
  obtain ⟨header, mid₂, hheader, h₂⟩ := Reader.bind_inv h₁
  obtain ⟨_, mid₃, -, h₃⟩ := Reader.bind_inv h₂
  obtain ⟨content, mid₄, hcontent, hpure⟩ := Reader.bind_inv h₃
  cases hpure
  have hbytes := Frame.bytes_eq_ok.mpr ⟨(Reader.bytes_inv hcontent).1, rfl⟩
  refine Frame.exists_sequence_cons exists_tag ?_
  refine Frame.exists_sequence_cons (Header.exists_write hS hheader) ?_
  exact Frame.exists_sequence_cons ⟨_, hbytes⟩ Frame.exists_sequence_nil

theorem rewrites_format (hS : S.Encodes) (pp : PublicParameters S) : (format pp).Rewrites :=
  fun _ _ _ h => ⟨accepts_of_read h, exists_write hS h⟩

end Ciphertext

end AttributeEncryption
