/-
  HashArchive.Proofs.Archive.Written

  A written archive as one string of bytes.  The writer goes back once to fill in the
  length of the data region; what it leaves is the plain concatenation `layout`, with the
  records of the files one after another (`write_eq`).  Each file has an offset by then, so
  the indexes can be built.
-/
import Mathlib
import HashArchive.Proofs.Archive.Indexes

namespace HashArchive

/-- A file with its record, and how far into the data region the record begins. -/
structure Kept where
  file : StoredFile
  record : Bytes
  position : Nat

namespace Archive

variable (archive : Archive) (streams : Streams) (deflate : Bytes → Bytes)

/-- Files with their records, which follow one another from a place on. -/
def keep : (start : Nat) → List StoredFile → Except ArchiveError (List Kept)
  | _, [] => .ok []
  | start, file :: files => do
    let record ← archive.fileRecord streams file deflate
    let others ← keep (start + record.length) files
    return ⟨file, record, start⟩ :: others

/-- The data region. -/
def dataOf (kept : List Kept) : Bytes := kept.flatMap (·.record)

/-- Where each record begins, by the key of the file's place. -/
def offsetsOf (kept : List Kept) : List (UInt64 × Nat) :=
  kept.map fun one => (archive.fileKey one.file, one.position)

/-- The bytes of an archive, given its records and the payload with its names. -/
def layout (kept : List Kept) (payload : Bytes) : Bytes :=
  Format.magic ++ Bytes.ofInt64 (Int64.ofNat (dataOf kept).length) ++ dataOf kept
    ++ BlockKind.utf16Index.encode (archive.nestedIndex .utf16 (archive.offsetsOf kept)).encode
    ++ BlockKind.utf8Index.encode (archive.nestedIndex .utf8 (archive.offsetsOf kept)).encode
    ++ BlockKind.names.encode payload

/-! ## The records -/

variable {archive streams deflate}

theorem keep_cons_eq_ok_iff {start : Nat} {file : StoredFile} {files : List StoredFile}
    {kept : List Kept} :
    archive.keep streams deflate start (file :: files) = .ok kept ↔
      ∃ record others, archive.fileRecord streams file deflate = .ok record ∧
        archive.keep streams deflate (start + record.length) files = .ok others ∧
        kept = ⟨file, record, start⟩ :: others := by
  rw [keep]
  constructor
  · intro h
    obtain ⟨record, hrecord, h⟩ := Outcome.bind_eq_ok_iff.mp h
    obtain ⟨others, hothers, h⟩ := Outcome.bind_eq_ok_iff.mp h
    exact ⟨record, others, hrecord, hothers, (Except.ok.inj h).symm⟩
  · rintro ⟨record, others, hrecord, hothers, rfl⟩
    rw [hrecord, Outcome.bind_eq_ok_iff]
    exact ⟨record, rfl, Outcome.bind_eq_ok_iff.mpr ⟨others, hothers, rfl⟩⟩

/-- What is kept is the files in their order. -/
theorem map_file_of_keep {start : Nat} {files : List StoredFile} {kept : List Kept}
    (h : archive.keep streams deflate start files = .ok kept) : kept.map (·.file) = files := by
  induction files generalizing start kept with
  | nil =>
    obtain rfl := Except.ok.inj h
    rfl
  | cons file files ih =>
    obtain ⟨record, others, -, hothers, rfl⟩ := keep_cons_eq_ok_iff.mp h
    rw [List.map_cons, ih hothers]

/-- Each record is the file's own, and is found at its place in the data region. -/
theorem record_of_mem_keep {start : Nat} {files : List StoredFile} {kept : List Kept}
    (h : archive.keep streams deflate start files = .ok kept) {one : Kept} (hmem : one ∈ kept) :
    archive.fileRecord streams one.file deflate = .ok one.record ∧ start ≤ one.position ∧
      one.record <+: (dataOf kept).drop (one.position - start) := by
  induction files generalizing start kept with
  | nil =>
    obtain rfl := Except.ok.inj h
    cases hmem
  | cons file files ih =>
    obtain ⟨record, others, hrecord, hothers, rfl⟩ := keep_cons_eq_ok_iff.mp h
    rcases List.mem_cons.mp hmem with rfl | hmem
    · refine ⟨hrecord, le_refl _, ?_⟩
      rw [Nat.sub_self, List.drop_zero]
      exact List.prefix_append _ _
    · obtain ⟨hown, hstart, hpre⟩ := ih hothers hmem
      refine ⟨hown, by omega, ?_⟩
      -- The record in front is skipped first, and then what the later ones ask for.
      have hdrop : one.position - start
          = record.length + (one.position - (start + record.length)) := by omega
      rw [dataOf, List.flatMap_cons, hdrop, ← List.drop_drop, List.drop_left]
      exact hpre

/-- A record begins with a header, so it takes some bytes. -/
theorem length_pos_of_fileRecord {file : StoredFile} {record : Bytes}
    (h : archive.fileRecord streams file deflate = .ok record) : 0 < record.length := by
  rw [fileRecord] at h
  obtain ⟨⟨header, data⟩, -, h⟩ := Outcome.bind_eq_ok_iff.mp h
  obtain rfl := Except.ok.inj h
  rw [List.length_append, RecordHeader.length_encode, Format.headerLength]
  omega

/-- Records begin at places that go up. -/
theorem positions_of_keep {start : Nat} {files : List StoredFile} {kept : List Kept}
    (h : archive.keep streams deflate start files = .ok kept) :
    kept.Pairwise (fun one other => one.position < other.position) := by
  induction files generalizing start kept with
  | nil =>
    obtain rfl := Except.ok.inj h
    exact List.Pairwise.nil
  | cons file files ih =>
    obtain ⟨record, others, hrecord, hothers, rfl⟩ := keep_cons_eq_ok_iff.mp h
    refine List.pairwise_cons.mpr ⟨?_, ih hothers⟩
    intro other hmem
    -- Later records begin behind the end of this one, which takes at least its header.
    have hlater := (record_of_mem_keep hothers hmem).2.1
    have hlength := length_pos_of_fileRecord hrecord
    show start < other.position
    omega

/-- Writing the records at the end of a stream adds the data region to it. -/
theorem writeRecords_eq {front : Bytes} {start : Nat}
    (hfront : front.length = Format.dataStart + start) (files : List StoredFile) :
    archive.writeRecords streams deflate files (⟨front, front.length⟩ : Stream)
      = (archive.keep streams deflate start files).map fun kept =>
          (⟨front ++ dataOf kept, (front ++ dataOf kept).length⟩, archive.offsetsOf kept) := by
  induction files generalizing front start with
  | nil => simp [writeRecords, keep, Except.map, dataOf, offsetsOf]
  | cons file files ih =>
    rw [writeRecords, keep]
    cases hrecord : archive.fileRecord streams file deflate with
    | error error => rfl
    | ok record =>
      have hnext : (front ++ record).length = Format.dataStart + (start + record.length) := by
        rw [List.length_append, hfront, Nat.add_assoc]
      rw [Outcome.ok_bind, Outcome.ok_bind, Output.write_stream, Stream.write_at_end, ih hnext]
      cases archive.keep streams deflate (start + record.length) files with
      | error error => rfl
      | ok others =>
        have hstart : front.length - Format.dataStart = start := by omega
        simp [Except.map, pure, Except.pure, dataOf, offsetsOf, Output.position_stream, hstart]

/-! ## The whole -/

/-- All files have offsets once their records are there. -/
theorem isSome_offset?_of_keep {kept : List Kept}
    (h : archive.keep streams deflate 0 archive.files = .ok kept) :
    ∀ file ∈ archive.files,
      (offset? (archive.offsetsOf kept) (archive.fileKey file)).isSome := by
  intro file hmem
  rw [← map_file_of_keep h] at hmem
  obtain ⟨one, hone, rfl⟩ := List.mem_map.mp hmem
  rw [offset?, Option.isSome_map, Index.isSome_latest?_iff, offsetsOf, List.map_map]
  exact List.mem_map.mpr ⟨one, hone, rfl⟩

/-- What the writer leaves is the layout of the records and the names. -/
theorem write_eq (h : archive.WellFormed) :
    archive.write streams deflate = (archive.keep streams deflate 0 archive.files).bind fun kept =>
      (archive.namePayload deflate).map (archive.layout kept) := by
  have hfront : (Format.magic ++ Bytes.ofInt64 0).length = Format.dataStart + 0 := rfl
  have hmagic : (⟨[], 0⟩ : Stream).write Format.magic = ⟨Format.magic, Format.magic.length⟩ :=
    Stream.write_at_end [] Format.magic
  rw [write, writeTo]
  dsimp only [Output.write_stream, Output.seek_stream, Output.position_stream]
  rw [hmagic, Stream.write_at_end, writeRecords_eq hfront]
  cases hkeep : archive.keep streams deflate 0 archive.files with
  | error error => rfl
  | ok kept =>
    have hindex : ∀ encoding, archive.index encoding (archive.offsetsOf kept)
        = .ok (archive.nestedIndex encoding (archive.offsetsOf kept)) := fun encoding =>
      (index_eq_ok_iff h).mpr ⟨isSome_offset?_of_keep hkeep, rfl⟩
    -- The length field holds as many bytes as what is written over it.
    set length := Int64.ofNat (dataOf kept).length with hlength
    have hover := Stream.write_over Format.magic (Bytes.ofInt64 0) (Bytes.ofInt64 length)
      (dataOf kept) rfl
    have hlengthField : (Format.magic ++ Bytes.ofInt64 0 ++ dataOf kept).length
        - (Format.magic ++ Bytes.ofInt64 0).length = (dataOf kept).length := by
      rw [List.length_append, Nat.add_sub_cancel_left]
    have hend : (Format.magic ++ Bytes.ofInt64 0 ++ dataOf kept).length
        = (Format.magic ++ Bytes.ofInt64 length ++ dataOf kept).length := by
      simp [Bytes.ofInt64, Bytes.ofUInt64]
    simp only [Except.map, Outcome.ok_bind, hlengthField, Stream.seek, ← hlength, hover, hindex]
    rw [hend]
    simp only [Stream.write_at_end]
    cases archive.namePayload deflate with
    | error error => rfl
    | ok payload => rfl

theorem write_eq_ok_iff (h : archive.WellFormed) {bytes : Bytes} :
    archive.write streams deflate = .ok bytes ↔
      ∃ kept payload, archive.keep streams deflate 0 archive.files = .ok kept ∧
        archive.namePayload deflate = .ok payload ∧ archive.layout kept payload = bytes := by
  rw [write_eq h]
  cases archive.keep streams deflate 0 archive.files with
  | error error => simp [Except.bind]
  | ok kept =>
    cases archive.namePayload deflate with
    | error error => simp [Except.bind, Except.map]
    | ok payload => simp [Except.bind, Except.map]

end Archive

end HashArchive
