/-
  HashArchive.Proofs.Archive.OnePass

  The writer moves its cursor, and what it leaves is what one pass over the files gives
  (`write_one_pass`).  How often it writes to a place is said by a stream that keeps a journal
  of the writes, which is an output like any other; without the journal the run is the same
  (`map_stream_writeTo`).  Every write but one goes to the end, and that one goes over the
  length field.
-/
import Mathlib
import HashArchive.Proofs.Archive.Acceptance

namespace HashArchive

/-! ## Journals -/

/-- A stream and a journal of its writes: where each began, and how many bytes it put there. -/
structure Journal where
  stream : Stream
  ranges : List (Nat × Nat) := []

namespace Journal

variable {journal : Journal} {first last : Nat}

instance : Output Journal where
  position journal := journal.stream.position
  seek journal position := { journal with stream := journal.stream.seek position }
  -- The place of the bytes goes into the journal.
  write journal data :=
    { stream := journal.stream.write data
      ranges := journal.ranges ++ [(journal.stream.position, data.length)] }

/-- How often a byte has been written to a place. -/
def times (journal : Journal) (place : Nat) : Nat :=
  journal.ranges.countP fun range => range.1 ≤ place ∧ place < range.1 + range.2

@[simp] theorem times_seek (journal : Journal) (position place : Nat) :
    (Output.seek journal position).times place = journal.times place := rfl

theorem times_write (journal : Journal) (data : Bytes) (place : Nat) :
    (Output.write journal data).times place = journal.times place
      + if journal.stream.position ≤ place ∧ place < journal.stream.position + data.length
        then 1 else 0 := by
  show List.countP _ (journal.ranges ++ [_]) = List.countP _ journal.ranges + _
  rw [List.countP_append, List.countP_singleton]
  simp only [decide_eq_true_eq]

/-- The cursor is at the end, and each byte has been written once, but those of a range twice. -/
structure Laid (first last : Nat) (journal : Journal) : Prop where
  atEnd : journal.stream.position = journal.stream.bytes.length
  times_eq : ∀ place, journal.times place
    = (if place < journal.stream.bytes.length then 1 else 0)
      + if first ≤ place ∧ place < last then 1 else 0

/-- What is written at the end is added to the bytes. -/
theorem Laid.stream_write (h : Laid first last journal) (data : Bytes) :
    (Output.write journal data).stream
      = ⟨journal.stream.bytes ++ data, (journal.stream.bytes ++ data).length⟩ := by
  have hend : journal.stream = ⟨journal.stream.bytes, journal.stream.bytes.length⟩ := by
    rw [← h.atEnd]
  show journal.stream.write data = _
  rw [hend, Stream.write_at_end]

/-- A write at the end writes to no place again. -/
theorem Laid.write (h : Laid first last journal) (data : Bytes) :
    Laid first last (Output.write journal data) := by
  refine ⟨?_, fun place => ?_⟩
  · rw [h.stream_write]
  · rw [times_write, h.times_eq, h.atEnd, h.stream_write, List.length_append]
    split_ifs <;> omega

/-- A write over bytes that have been written once writes to their places again; the cursor
    then goes back to the end. -/
theorem Laid.overwrite (h : Laid first first journal) (place : Nat) (data : Bytes)
    (hfits : place + data.length ≤ journal.stream.bytes.length) :
    Laid place (place + data.length)
      (Output.seek (Output.write (Output.seek journal place) data) (Output.position journal)) := by
  have hlength : ((journal.stream.seek place).write data).bytes.length
      = journal.stream.bytes.length := by
    simp only [Stream.write, Stream.seek, List.length_append, List.length_take,
      List.length_replicate, List.length_drop]
    omega
  refine ⟨?_, fun other => ?_⟩
  · exact h.atEnd.trans hlength.symm
  · have hposition : (Output.seek journal place).stream.position = place := rfl
    rw [times_seek, times_write, times_seek, h.times_eq, hposition]
    show _ = (if other < ((journal.stream.seek place).write data).bytes.length then 1 else 0) + _
    rw [hlength]
    split_ifs <;> omega

end Journal

namespace Archive

/-! ## The writer with a journal -/

variable {archive : Archive} {streams : Streams} {deflate : Bytes → Bytes} {first last : Nat}

/-- The journal does not change how the records are written. -/
theorem map_stream_writeRecords (files : List StoredFile) (output : Journal) :
    (archive.writeRecords streams deflate files output).map (Prod.map (·.stream) id)
      = archive.writeRecords streams deflate files output.stream := by
  induction files generalizing output with
  | nil => rfl
  | cons file files ih =>
    rw [writeRecords, writeRecords]
    refine Outcome.map_bind_eq (congrFun Except.map_id _) fun record => ?_
    exact Outcome.map_bind_eq (ih (Output.write output record)) fun _ => rfl

/-- The journal does not change how the archive is written. -/
theorem map_stream_writeTo (archive : Archive) (streams : Streams) (output : Journal)
    (deflate : Bytes → Bytes) :
    (archive.writeTo streams output deflate).map (·.stream)
      = archive.writeTo streams output.stream deflate := by
  rw [writeTo, writeTo]
  refine Outcome.map_bind_eq (map_stream_writeRecords archive.files _) fun written => ?_
  refine Outcome.map_bind_eq (congrFun Except.map_id _) fun utf16 => ?_
  refine Outcome.map_bind_eq (congrFun Except.map_id _) fun utf8 => ?_
  exact Outcome.map_bind_eq (congrFun Except.map_id _) fun payload => rfl

/-- The records of files are written to the end. -/
theorem laid_writeRecords {files : List StoredFile} {output after : Journal}
    {offsets : List (UInt64 × Nat)}
    (hrun : archive.writeRecords streams deflate files output = .ok (after, offsets))
    (h : output.Laid first last) :
    after.Laid first last ∧ output.stream.bytes.length ≤ after.stream.bytes.length := by
  induction files generalizing output after offsets with
  | nil =>
    obtain ⟨rfl, -⟩ := Prod.mk.inj (Except.ok.inj hrun)
    exact ⟨h, le_refl _⟩
  | cons file files ih =>
    obtain ⟨record, -, hrun⟩ := Outcome.bind_eq_ok_iff.mp hrun
    obtain ⟨⟨last', others⟩, hrest, hrun⟩ := Outcome.bind_eq_ok_iff.mp hrun
    obtain ⟨rfl, -⟩ := Prod.mk.inj (Except.ok.inj hrun)
    obtain ⟨hafter, hlength⟩ := ih hrest (h.write record)
    rw [h.stream_write, List.length_append] at hlength
    exact ⟨hafter, by omega⟩

/-- Only the length field is written twice. -/
theorem laid_writeTo {journal : Journal}
    (hrun : archive.writeTo streams ({ stream := { bytes := [] } } : Journal) deflate
      = .ok journal) :
    journal.Laid Format.magic.length Format.dataStart := by
  have hempty : Journal.Laid 0 0 { stream := { bytes := [] } } :=
    ⟨rfl, fun place => by simp [Journal.times]⟩
  have hfront := (hempty.write Format.magic).write (Bytes.ofInt64 0)
  obtain ⟨⟨after, offsets⟩, hrecords, hrun⟩ := Outcome.bind_eq_ok_iff.mp hrun
  obtain ⟨utf16, -, hrun⟩ := Outcome.bind_eq_ok_iff.mp hrun
  obtain ⟨utf8, -, hrun⟩ := Outcome.bind_eq_ok_iff.mp hrun
  obtain ⟨payload, -, hrun⟩ := Outcome.bind_eq_ok_iff.mp hrun
  obtain rfl := Except.ok.inj hrun
  obtain ⟨hafter, hlength⟩ := laid_writeRecords hrecords hfront
  -- The length field lies in front of the records.
  have hpatched := hafter.overwrite Format.magic.length
    (Bytes.ofInt64 (Int64.ofNat (Output.position after - Format.dataStart))) hlength
  exact ((hpatched.write _).write _).write _

/-! ## One pass -/

/-- Headers and data one after another. -/
def recordBytes (records : List (RecordHeader × Bytes)) : Bytes :=
  records.flatMap fun record => record.1.encode ++ record.2

/-- By the key of each file, in order, how many bytes there are in the records before its own.
    Where files share a key, an index takes what is put down last (`offset?`). -/
def offsetsBefore (archive : Archive) (records : List (RecordHeader × Bytes)) :
    List (UInt64 × Nat) :=
  archive.files.mapIdx fun i file => (archive.fileKey file, (recordBytes (records.take i)).length)

/-- The bytes of an archive in one pass: each file as it is stored, in order, and behind the
    records the two indexes and the packed names.  No length or offset is taken from a cursor. -/
structure OnePass (archive : Archive) (streams : Streams) (deflate : Bytes → Bytes)
    (records : List (RecordHeader × Bytes)) (bytes : Bytes) : Prop where
  stored : List.Forall₂ (fun file record =>
    storedForm streams archive.policy file.entry.name file.entry.source deflate = .ok record)
    archive.files records
  laid : ∃ utf16 utf8 : Index, ∃ header : RecordHeader,
    archive.index .utf16 (archive.offsetsBefore records) = .ok utf16 ∧
    archive.index .utf8 (archive.offsetsBefore records) = .ok utf8 ∧
    header.compressed = true ∧
    header.contentSize.toNat = (NameTable.encode archive.names).length ∧
    header.storedSize.toNat = (Packed.pack (NameTable.encode archive.names) deflate).length ∧
    bytes = Format.magic ++ Bytes.ofInt64 (Int64.ofNat (recordBytes records).length)
      ++ recordBytes records
      ++ BlockKind.utf16Index.encode utf16.encode
      ++ BlockKind.utf8Index.encode utf8.encode
      ++ BlockKind.names.encode
        (header.encode ++ Packed.pack (NameTable.encode archive.names) deflate)

/-- Files that are kept are stored one after another. -/
theorem exists_records_of_keep {start : Nat} {files : List StoredFile} {kept : List Kept}
    (h : archive.keep streams deflate start files = .ok kept) :
    ∃ records, List.Forall₂ (fun file record =>
        storedForm streams archive.policy file.entry.name file.entry.source deflate = .ok record)
        files records ∧
      dataOf kept = recordBytes records ∧
      archive.offsetsOf kept = files.mapIdx fun i file =>
        (archive.fileKey file, start + (recordBytes (records.take i)).length) := by
  induction files generalizing start kept with
  | nil =>
    obtain rfl := Except.ok.inj h
    exact ⟨[], .nil, rfl, rfl⟩
  | cons file files ih =>
    obtain ⟨record, others, hrecord, hothers, rfl⟩ := keep_cons_eq_ok_iff.mp h
    obtain ⟨⟨header, data⟩, hform, hrecord⟩ := Outcome.bind_eq_ok_iff.mp hrecord
    obtain rfl := Except.ok.inj hrecord
    obtain ⟨records, hstored, hdata, hoffsets⟩ := ih hothers
    refine ⟨(header, data) :: records, .cons hform hstored, ?_, ?_⟩
    · rw [dataOf, recordBytes, List.flatMap_cons, List.flatMap_cons]
      exact congrArg (header.encode ++ data ++ ·) hdata
    · rw [offsetsOf, List.map_cons, List.mapIdx_cons]
      refine congrArg₂ List.cons rfl (hoffsets.trans ?_)
      -- Each later file has the first record before its own, too.
      refine congrArg (files.mapIdx ·) (funext fun i => funext fun other => ?_)
      have hlength : (recordBytes (((header, data) :: records).take (i + 1))).length
          = (header.encode ++ data).length + (recordBytes (records.take i)).length := by
        rw [List.take_succ_cons, recordBytes, List.flatMap_cons, List.length_append, recordBytes]
      rw [hlength, Nat.add_assoc]

/-- Where the records of files begin on an empty stream. -/
def recordStart : Stream := ({ bytes := [] : Stream }.write Format.magic).write (Bytes.ofInt64 0)

/-- What the writer leaves on an empty stream is one pass over the files, and the offset that it
    puts down for each file is the length of the records before.  A journal of its writes, which
    does not change the run, has one write to each place, and to those of the length field a
    second. -/
theorem write_one_pass (h : Reachable archive) {bytes : Bytes}
    (hwrite : archive.write streams deflate = .ok bytes) :
    (∃ records, archive.OnePass streams deflate records bytes ∧
      (archive.writeRecords streams deflate archive.files recordStart).map Prod.snd
        = .ok (archive.offsetsBefore records)) ∧
      (∀ output : Journal, (archive.writeTo streams output deflate).map (·.stream)
        = archive.writeTo streams output.stream deflate) ∧
      ∃ journal : Journal,
        archive.writeTo streams { stream := { bytes := [] } } deflate = .ok journal ∧
        journal.stream.bytes = bytes ∧
        ∀ place, journal.times place = (if place < bytes.length then 1 else 0)
          + if Format.magic.length ≤ place ∧ place < Format.dataStart then 1 else 0 := by
  refine ⟨?_, fun output => map_stream_writeTo archive streams output deflate, ?_⟩
  · obtain ⟨kept, payload, hkeep, hpayload, rfl⟩ := (write_eq_ok_iff h.wellFormed).mp hwrite
    obtain ⟨records, hstored, hdata, hoffsets⟩ := exists_records_of_keep hkeep
    have hbefore : archive.offsetsOf kept = archive.offsetsBefore records := by
      simp only [Nat.zero_add] at hoffsets
      exact hoffsets
    obtain ⟨contentSize, storedSize, hcontent, hsize, rfl⟩ :=
      exists_wrapNames_of_namePayload hpayload
    have hindex : ∀ encoding, archive.index encoding (archive.offsetsBefore records)
        = .ok (archive.nestedIndex encoding (archive.offsetsOf kept)) := fun encoding =>
      hbefore ▸ (index_eq_ok_iff h.wellFormed).mpr ⟨isSome_offset?_of_keep hkeep, rfl⟩
    refine ⟨records, ⟨hstored, _, _, ⟨true, contentSize, storedSize⟩, hindex .utf16, hindex .utf8,
      rfl, hcontent, hsize, ?_⟩, ?_⟩
    · rw [layout, hdata]
      rfl
    · have hfront : (Format.magic ++ Bytes.ofInt64 0).length = Format.dataStart + 0 := rfl
      have hstart : recordStart
          = ⟨Format.magic ++ Bytes.ofInt64 0, (Format.magic ++ Bytes.ofInt64 0).length⟩ := rfl
      rw [hstart, writeRecords_eq hfront, hkeep, ← hbefore]
      rfl
  · obtain ⟨output, hrun, hbytes⟩ := Outcome.bind_eq_ok_iff.mp hwrite
    obtain rfl := Except.ok.inj hbytes
    have herase := map_stream_writeTo archive streams { stream := { bytes := [] } } deflate
    rw [hrun] at herase
    cases hjournal : archive.writeTo streams ({ stream := { bytes := [] } } : Journal) deflate with
    | error error =>
      rw [hjournal] at herase
      cases herase
    | ok journal =>
      rw [hjournal] at herase
      obtain rfl := Except.ok.inj herase
      exact ⟨journal, rfl, rfl, (laid_writeTo hjournal).times_eq⟩

/-- Of an archive with two files the length field is written twice, and what follows it once. -/
theorem write_one_pass_twins :
    ∃ (bytes : Bytes) (records : List (RecordHeader × Bytes)) (journal : Journal),
      twins.write noStreams = .ok bytes ∧
      twins.OnePass noStreams Deflate.store records bytes ∧ records.length = 2 ∧
      twins.writeTo noStreams { stream := { bytes := [] } } = .ok journal ∧
      journal.stream.bytes = bytes ∧ journal.times 20 = 2 ∧ journal.times 28 = 1 := by
  have hlong : (twins.write noStreams).toOption.any (fun bytes => 28 < bytes.length) = true := by
    decide +kernel
  obtain ⟨bytes, hwrite, hlength⟩ := Outcome.exists_of_any hlong
  have hlength : 28 < bytes.length := by simpa using hlength
  obtain ⟨⟨records, hpass, -⟩, -, journal, hjournal, hbytes, htimes⟩ :=
    write_one_pass reachable_twins hwrite
  have hmagic : Format.magic.length = 20 := rfl
  have hstart : Format.dataStart = 28 := rfl
  refine ⟨bytes, records, journal, hwrite, hpass, ?_, hjournal, hbytes, ?_, ?_⟩
  · refine hpass.stored.length_eq.symm.trans ?_
    decide +kernel
  · rw [htimes, hmagic, hstart, if_pos (by omega), if_pos (by omega)]
  · rw [htimes, hmagic, hstart, if_pos (by omega), if_neg (by omega)]

end Archive

end HashArchive
