/-
  HashArchive.Proofs.Archive.Payloads

  The way from the first byte of a written archive to its metadata: the length of the data
  region, which stands in front of it, leads behind it to the three blocks
  (`readPayloads_layout`).  What follows the blocks is not looked at, and wherever the bytes
  are cut, their end is met (`endsEarly_readPayloads_take`).
-/
import Mathlib
import HashArchive.Archive.Read
import HashArchive.Proofs.Archive.Stored
import HashArchive.Proofs.Archive.Written
import HashArchive.Proofs.Metadata

namespace HashArchive.Archive

theorem readMagic_append (rest : Bytes) : readMagic (Format.magic ++ rest) = .ok ((), rest) := by
  have hnot : ¬ Format.encryptedMagic.isPrefixOf Format.magic = true := by decide
  rw [readMagic, List.take_left, List.drop_left, if_neg hnot, if_pos rfl]

/-- The magic bytes are missed wherever they are cut. -/
theorem readMagic_take {cut : Nat} (h : cut < Format.magic.length) :
    readMagic (Format.magic.take cut) = .error .endOfStream := by
  have hlength : Format.magic.length = 20 := rfl
  rw [hlength] at h
  interval_cases cut <;> rfl

/-- A distance that is not negative leads to a place behind the start of the data region. -/
theorem positionOf?_ofNat {n : Nat} (h : n < 2 ^ 63) :
    positionOf? (Int64.ofNat n) = some (Format.dataStart + n) := by
  have hint : (Int64.ofNat n).toInt = n := Int64.toInt_ofNat_of_lt h
  unfold positionOf?
  dsimp only
  rw [hint, if_pos (by rw [Format.dataStart, UInt64.size]; omega)]
  congr 1

variable {archive : Archive} {streams : Streams} {deflate : Bytes → Bytes} {payload : Bytes}

/-- The block with the names has the packed name table behind a header with its sizes. -/
theorem exists_wrapNames_of_namePayload (h : archive.namePayload deflate = .ok payload) :
    ∃ contentSize storedSize : UInt32,
      contentSize.toNat = (NameTable.encode archive.names).length ∧
      storedSize.toNat = (Packed.pack (NameTable.encode archive.names) deflate).length ∧
      payload = Metadata.wrapNames contentSize storedSize
        (Packed.pack (NameTable.encode archive.names) deflate) := by
  obtain ⟨contentSize, hcontent, h⟩ := Outcome.bind_eq_ok_iff.mp h
  obtain ⟨storedSize, hstored, h⟩ := Outcome.bind_eq_ok_iff.mp h
  obtain rfl := Except.ok.inj h
  exact ⟨contentSize, storedSize, Source.toNat_of_sizeField hcontent,
    Source.toNat_of_sizeField hstored, rfl⟩

/-- The block with the names holds the name table. -/
theorem unwrapNames_of_namePayload (hlossless : Deflate.Lossless deflate)
    (h : archive.namePayload deflate = .ok payload) :
    Metadata.unwrapNames payload = .ok (NameTable.encode archive.names) := by
  obtain ⟨contentSize, storedSize, -, hstored, rfl⟩ := exists_wrapNames_of_namePayload h
  rw [Metadata.unwrapNames_wrapNames contentSize hstored, Packed.unpack_pack hlossless]

/-- The payloads of the metadata blocks that the writer puts behind the data region. -/
def blocksOf (archive : Archive) (kept : List Kept) (payload : Bytes) : Metadata.Blocks where
  utf16 := (archive.nestedIndex .utf16 (archive.offsetsOf kept)).encode
  utf8 := (archive.nestedIndex .utf8 (archive.offsetsOf kept)).encode
  names := payload

/-- A written archive from its front: the magic bytes, the length of the data region, the data
    region, and the blocks. -/
theorem layout_eq (archive : Archive) (kept : List Kept) (payload : Bytes) :
    archive.layout kept payload = Format.magic ++ (Bytes.ofInt64 (Int64.ofNat (dataOf kept).length)
      ++ (dataOf kept ++ (archive.blocksOf kept payload).encode)) := by
  simp only [layout, blocksOf, Metadata.Blocks.encode, List.append_assoc]

theorem length_layout (archive : Archive) (kept : List Kept) (payload : Bytes) :
    (archive.layout kept payload).length = Format.dataStart + (dataOf kept).length
      + (archive.blocksOf kept payload).encode.length := by
  have hfront : (Format.magic ++ Bytes.ofInt64 (Int64.ofNat (dataOf kept).length)).length
      = Format.dataStart := rfl
  rw [layout_eq, ← List.append_assoc, List.length_append, hfront, List.length_append,
    Nat.add_assoc]

theorem fits_blocksOf {kept : List Kept} (hfits : (archive.layout kept payload).length < 2 ^ 63) :
    (archive.blocksOf kept payload).Fits := by
  rw [length_layout, Metadata.Blocks.length_encode] at hfits
  constructor <;> omega

/-- The length field leads past the magic bytes, itself and as many bytes as it says. -/
theorem readPayloads_append {n : Nat} (h : n < 2 ^ 63) (rest : Bytes) :
    readPayloads (Format.magic ++ (Bytes.ofInt64 (Int64.ofNat n) ++ rest))
      = Metadata.scan (rest.drop n) := by
  have hfront : (Format.magic ++ Bytes.ofInt64 (Int64.ofNat n)).length = Format.dataStart := rfl
  have hdrop : (Format.magic ++ (Bytes.ofInt64 (Int64.ofNat n) ++ rest)).drop
      (Format.dataStart + n) = rest.drop n := by
    rw [← List.append_assoc, ← hfront, ← List.drop_drop, List.drop_left]
  rw [readPayloads, readMagic_append, Guarding.lift_eq, Outcome.ok_bind]
  dsimp only
  rw [Reader.int64_append, Guarding.lift_eq, Outcome.ok_bind]
  dsimp only
  rw [positionOf?_ofNat h]
  dsimp only
  rw [hdrop]

/-- The payloads of a written archive are its two indexes and the bytes in its third block,
    whatever follows the archive. -/
theorem readPayloads_layout_append (kept : List Kept)
    (hfits : (archive.layout kept payload).length < 2 ^ 63) (rest : Bytes) :
    readPayloads (archive.layout kept payload ++ rest)
      = (Metadata.unwrapNames payload).map fun names =>
          ⟨(archive.blocksOf kept payload).utf16, (archive.blocksOf kept payload).utf8, names⟩ := by
  have hdata : (dataOf kept).length < 2 ^ 63 := by
    rw [length_layout] at hfits
    omega
  rw [layout_eq, List.append_assoc, List.append_assoc, readPayloads_append hdata,
    List.append_assoc, List.drop_left, Metadata.scan_append (fits_blocksOf hfits)]
  rfl

/-- The payloads of a written archive are its two indexes and its name table. -/
theorem readPayloads_layout (hlossless : Deflate.Lossless deflate) (kept : List Kept)
    (hnames : archive.namePayload deflate = .ok payload)
    (hfits : (archive.layout kept payload).length < 2 ^ 63) :
    readPayloads (archive.layout kept payload)
      = .ok ⟨(archive.nestedIndex .utf16 (archive.offsetsOf kept)).encode,
          (archive.nestedIndex .utf8 (archive.offsetsOf kept)).encode,
          NameTable.encode archive.names⟩ := by
  have hlayout := readPayloads_layout_append kept hfits []
  rw [List.append_nil, unwrapNames_of_namePayload hlossless hnames] at hlayout
  exact hlayout

/-- Wherever a written archive is cut, the search for its metadata ends early. -/
theorem endsEarly_readPayloads_take (kept : List Kept)
    (hfits : (archive.layout kept payload).length < 2 ^ 63) {cut : Nat}
    (hcut : cut < (archive.layout kept payload).length) :
    ∃ error, readPayloads ((archive.layout kept payload).take cut) = .error error ∧
      error.EndsEarly := by
  set length := Int64.ofNat (dataOf kept).length with hlength
  have hfront : (Format.magic ++ Bytes.ofInt64 length).length = Format.dataStart := rfl
  have hmagic : Format.magic.length = 20 := rfl
  have hfield : (Bytes.ofInt64 length).length = 8 := rfl
  rw [length_layout] at hcut hfits
  rw [layout_eq, ← hlength]
  by_cases hshort : cut < Format.magic.length
  · -- The cut is in the magic bytes.
    rw [List.take_append_of_le_length hshort.le, readPayloads, readMagic_take hshort,
      Guarding.lift_eq]
    exact ⟨_, rfl, .endOfStream⟩
  · rw [List.take_append, List.take_of_length_le (Nat.le_of_not_lt hshort), hmagic]
    by_cases hhalf : cut - 20 < 8
    · -- The cut is in the length of the data region.
      rw [List.take_append_of_le_length (hfield ▸ hhalf.le), readPayloads, readMagic_append,
        Guarding.lift_eq, Outcome.ok_bind]
      dsimp only
      have hfew : ((Bytes.ofInt64 (Int64.ofNat (dataOf kept).length)).take (cut - 20)).length < 8 := by
        rw [List.length_take]
        omega
      rw [Reader.int64_eq_error_iff.mpr ⟨hfew, rfl⟩, Guarding.lift_eq, Outcome.error_bind]
      exact ⟨_, rfl, .endOfStream⟩
    · -- The cut is in the data region, of which nothing is read, or in the blocks.
      rw [List.take_append, List.take_of_length_le (by omega), hfield, hlength,
        readPayloads_append (by omega), List.drop_take, List.drop_left]
      apply Metadata.endsEarly_scan_take (fits_blocksOf (by rw [length_layout]; omega))
      rw [Format.dataStart] at hcut
      have hblocks := (archive.blocksOf kept payload).length_encode
      omega

end HashArchive.Archive
