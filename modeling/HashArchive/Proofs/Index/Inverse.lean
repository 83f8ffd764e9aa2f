/-
  HashArchive.Proofs.Index.Inverse

  Reading an index and writing it undo each other.  What is read stands written in the bytes,
  but for a field of each record that is not used (`Index.spelled_of_read`); and where the
  bytes of an index are cut, the reader meets their end (`Index.WellFormed.read_take`).
-/
import Mathlib
import HashArchive.Proofs.Index.RoundTrip
import HashArchive.Proofs.Reader.Fronts

namespace HashArchive

/-! ## The unused field -/

namespace IndexRecord

/-- How many bytes of a record stand before its unused field. -/
def unusedStart : Nat := 28

/-- The bytes of a record before its unused field. -/
def front (record : IndexRecord) : Bytes :=
  Format.recordTag ++ Bytes.ofUInt64 record.id
    ++ Bytes.ofNat 4 record.directories.length ++ Bytes.ofNat 4 record.files.length
    ++ Bytes.ofInt32 record.depth

/-- The bytes of a record behind its unused field. -/
def back (record : IndexRecord) : Bytes :=
  (record.directories ++ record.files).flatMap IndexEntry.encode
    ++ record.ancestors.flatMap Bytes.ofUInt64

theorem length_front (record : IndexRecord) : record.front.length = unusedStart := by
  simp [front, unusedStart, Format.recordTag, Bytes.ofUInt64, Bytes.ofInt32, Bytes.ofUInt32]

theorem encode_eq (record : IndexRecord) :
    record.encode = record.front ++ Bytes.ofUInt32 0 ++ record.back := by
  simp only [encode, front, back, List.append_assoc]

/-- The bytes spell the records one after another, with anything in their unused fields. -/
inductive Spelled : List IndexRecord → Bytes → Prop
  | nil : Spelled [] []
  | cons (record : IndexRecord) (unused : UInt32) {records : List IndexRecord} {bytes : Bytes}
      (rest : Spelled records bytes) :
      Spelled (record :: records) (record.front ++ Bytes.ofUInt32 unused ++ record.back ++ bytes)

theorem Spelled.append {records others : List IndexRecord} {bytes more : Bytes}
    (h : Spelled records bytes) (hmore : Spelled others more) :
    Spelled (records ++ others) (bytes ++ more) := by
  induction h with
  | nil => exact hmore
  | cons record unused _ ih =>
    rw [List.append_assoc _ _ more]
    exact .cons record unused ih

/-- The bytes of records with zeros in their unused fields. -/
def clearUnused : List IndexRecord → Bytes → Bytes
  | [], bytes => bytes
  | record :: records, bytes =>
    let own := bytes.take record.length
    own.take unusedStart ++ [0, 0, 0, 0] ++ own.drop (unusedStart + 4)
      ++ clearUnused records (bytes.drop record.length)

/-- Bytes that spell records are theirs once the unused fields are cleared. -/
theorem Spelled.clearUnused_eq {records : List IndexRecord} {bytes : Bytes}
    (h : Spelled records bytes) :
    clearUnused records bytes = records.flatMap encode ∧
      bytes.length = (records.flatMap encode).length := by
  induction h with
  | nil => exact ⟨rfl, rfl⟩
  | @cons record unused records bytes _ ih =>
    obtain ⟨hclear, hlength⟩ := ih
    set field := Bytes.ofUInt32 unused with hfield
    have hfieldLength : field.length = 4 := rfl
    have hfront := record.length_front
    have hown : (record.front ++ field ++ record.back).length = record.length := by
      have hencode := record.length_encode
      rw [encode_eq, List.length_append, List.length_append] at hencode
      rw [List.length_append, List.length_append]
      exact hencode
    have hbefore : (record.front ++ field ++ record.back).take unusedStart = record.front := by
      rw [List.append_assoc, List.take_left' hfront]
    have hbehind : (record.front ++ field ++ record.back).drop (unusedStart + 4) = record.back := by
      rw [← List.drop_drop, List.append_assoc, List.drop_left' hfront, List.drop_left' hfieldLength]
    refine ⟨?_, ?_⟩
    · rw [clearUnused, List.take_left' hown, List.drop_left' hown, hbefore, hbehind, hclear,
        List.flatMap_cons, encode_eq]
      rfl
    · rw [List.flatMap_cons, List.length_append, hown, hlength, List.length_append, length_encode]

/-! ## Reading a record -/

/-- A record that is read stands in its place, whatever is below it, and is spelled. -/
theorem spelled_of_read {expected : Nat} {bytes rest : Bytes} {record : IndexRecord}
    (h : read expected bytes = .ok (record, rest)) :
    record.Counted ∧ record.depth.toInt = expected ∧ expected ≤ Format.maxDepth ∧
      record.ancestors.length = expected ∧
      ∃ unused, bytes = record.front ++ Bytes.ofUInt32 unused ++ record.back ++ rest := by
  obtain ⟨⟨tag, bytes₁⟩, htag, h⟩ := Outcome.bind_eq_ok_iff.mp h
  dsimp only at h
  split at h
  · cases h
  next hknown =>
  obtain ⟨⟨id, bytes₂⟩, hid, h⟩ := Outcome.bind_eq_ok_iff.mp h
  obtain ⟨⟨directoryCount, bytes₃⟩, hdirectoryCount, h⟩ := Outcome.bind_eq_ok_iff.mp h
  obtain ⟨⟨fileCount, bytes₄⟩, hfileCount, h⟩ := Outcome.bind_eq_ok_iff.mp h
  obtain ⟨⟨depth, bytes₅⟩, hdepth, h⟩ := Outcome.bind_eq_ok_iff.mp h
  obtain ⟨⟨unused, bytes₆⟩, hunused, h⟩ := Outcome.bind_eq_ok_iff.mp h
  dsimp only at h
  split at h
  · cases h
  next hplaced =>
  obtain ⟨⟨directories, bytes₇⟩, hdirectories, h⟩ := Outcome.bind_eq_ok_iff.mp h
  obtain ⟨⟨files, bytes₈⟩, hfiles, h⟩ := Outcome.bind_eq_ok_iff.mp h
  obtain ⟨⟨ancestors, bytes₉⟩, hancestors, h⟩ := Outcome.bind_eq_ok_iff.mp h
  obtain ⟨rfl, rfl⟩ := Outcome.pure_pair_eq_ok_iff.mp h
  -- Each field in turn stands at the front of what is left.
  obtain ⟨rfl, -⟩ := Reader.exactly_eq_ok_iff.mp htag
  obtain rfl := Reader.uint64_eq_ok_iff.mp hid
  obtain ⟨rfl, hdirectoriesFit⟩ := Reader.count_eq_ok_iff.mp hdirectoryCount
  obtain ⟨rfl, hfilesFit⟩ := Reader.count_eq_ok_iff.mp hfileCount
  obtain rfl := Reader.int32_eq_ok_iff.mp hdepth
  obtain rfl := Reader.uint32_eq_ok_iff.mp hunused
  obtain ⟨rfl, rfl⟩ := (Reader.times_eq_ok_iff IndexEntry.read_eq_ok_iff).mp hdirectories
  obtain ⟨rfl, rfl⟩ := (Reader.times_eq_ok_iff IndexEntry.read_eq_ok_iff).mp hfiles
  obtain ⟨hcount, rfl⟩ := (Reader.times_eq_ok_iff Reader.uint64_eq_ok_iff).mp hancestors
  obtain rfl := not_not.mp hknown
  rw [refused_iff, not_or, not_not, not_lt] at hplaced
  rw [hplaced.1, Int.toNat_natCast] at hcount
  refine ⟨⟨hdirectoriesFit, hfilesFit⟩, hplaced.1, hplaced.2, hcount, unused, ?_⟩
  simp only [front, back, List.flatMap_append, List.append_assoc]

theorem stable_read (expected : Nat) : Reader.Stable (read expected) := by
  refine (Reader.stable_exactly _).bind fun tag => ?_
  refine Reader.Stable.ite (fun _ => Reader.stable_error _) fun _ => ?_
  refine Reader.stable_uint64.bind fun id => ?_
  refine (Reader.stable_count _).bind fun directoryCount => ?_
  refine (Reader.stable_count _).bind fun fileCount => ?_
  refine Reader.stable_int32.bind fun depth => ?_
  refine Reader.stable_uint32.bind fun _ => ?_
  refine Reader.Stable.ite (fun _ => Reader.stable_error _) fun _ => ?_
  refine (Reader.stable_times IndexEntry.stable_read _).bind fun directories => ?_
  refine (Reader.stable_times IndexEntry.stable_read _).bind fun files => ?_
  refine (Reader.stable_times Reader.stable_uint64 _).bind fun ancestors => ?_
  exact Reader.stable_pure _

end IndexRecord

/-! ## Reading the records below -/

namespace Index

/-- What it means that sibling records were taken off the front of bytes: they are as many as
    asked for, stand in their places, and are spelled. -/
structure Taken (expected count : Nat) (bytes : Bytes) (forest : Forest IndexRecord)
    (rest : Bytes) : Prop where
  count : forest.trees.length = count
  formed : WellFormedAt expected forest
  spelled : ∃ front, bytes = front ++ rest ∧ IndexRecord.Spelled forest.labels front

/-- Siblings are taken off the front when those below each of them are. -/
theorem taken_of_readSiblings {below : Nat → Reader (Forest IndexRecord)} {expected : Nat}
    (hbelow : expected ≤ Format.maxDepth → ∀ {count : Nat} {bytes rest : Bytes}
      {forest : Forest IndexRecord}, below count bytes = .ok (forest, rest) →
        Taken (expected + 1) count bytes forest rest)
    {count : Nat} {bytes rest : Bytes} {forest : Forest IndexRecord}
    (h : readSiblings below expected count bytes = .ok (forest, rest)) :
    Taken expected count bytes forest rest := by
  induction count generalizing bytes forest with
  | zero =>
    obtain ⟨rfl, rfl⟩ := Prod.mk.inj (Except.ok.inj h)
    exact ⟨rfl, trivial, [], rfl, .nil⟩
  | succ count ih =>
    obtain ⟨⟨record, bytes₁⟩, hrecord, h⟩ := Outcome.bind_eq_ok_iff.mp h
    obtain ⟨⟨children, bytes₂⟩, hchildren, h⟩ := Outcome.bind_eq_ok_iff.mp h
    obtain ⟨⟨later, bytes₃⟩, hlater, h⟩ := Outcome.bind_eq_ok_iff.mp h
    obtain ⟨rfl, rfl⟩ := Outcome.pure_pair_eq_ok_iff.mp h
    obtain ⟨hcounted, hdepth, hshallow, hancestors, unused, rfl⟩ :=
      IndexRecord.spelled_of_read hrecord
    obtain ⟨hchildCount, hinside, inside, rfl, hspelledInside⟩ := hbelow hshallow hchildren
    obtain ⟨hlaterCount, hbeside, beside, rfl, hspelledBeside⟩ := ih hlater
    refine ⟨?_, ⟨⟨hcounted, hdepth, hshallow, hancestors, hchildCount.symm⟩, hinside, hbeside⟩,
      _, ?_, .cons record unused (hspelledInside.append hspelledBeside)⟩
    · rw [Forest.trees, List.length_cons, hlaterCount]
    · simp only [List.append_assoc]

theorem taken_of_readLevel {levels expected : Nat}
    (hlevels : levels + expected = Format.maxDepth + 1) {count : Nat} {bytes rest : Bytes}
    {forest : Forest IndexRecord} (h : readLevel levels expected count bytes = .ok (forest, rest)) :
    Taken expected count bytes forest rest := by
  induction levels generalizing expected count bytes forest rest with
  | zero =>
    -- No record at the last level is read, so none below one is.
    exact taken_of_readSiblings (fun hshallow => by omega) h
  | succ levels ih =>
    exact taken_of_readSiblings (fun _ {_ _ _ _} hinside => ih (by omega) hinside) h

/-- An index that is read stands in its places and is spelled. -/
theorem spelled_of_read {bytes rest : Bytes} {index : Index} (h : read bytes = .ok (index, rest)) :
    index.WellFormed ∧ ∃ front, bytes = front ++ rest ∧
      IndexRecord.Spelled index.labels front := by
  obtain ⟨⟨record, bytes₁⟩, hrecord, h⟩ := Outcome.bind_eq_ok_iff.mp h
  obtain ⟨⟨below, bytes₂⟩, hbelow, h⟩ := Outcome.bind_eq_ok_iff.mp h
  obtain ⟨rfl, rfl⟩ := Outcome.pure_pair_eq_ok_iff.mp h
  obtain ⟨hcounted, hdepth, hshallow, hancestors, unused, rfl⟩ :=
    IndexRecord.spelled_of_read hrecord
  obtain ⟨hcount, hformed, inside, rfl, hspelled⟩ := taken_of_readLevel rfl hbelow
  refine ⟨⟨⟨hcounted, hdepth, hshallow, hancestors, hcount.symm⟩, hformed⟩, _, ?_,
    .cons record unused hspelled⟩
  simp only [List.append_assoc]

/-! ## Cut bytes -/

theorem stable_readSiblings {below : Nat → Reader (Forest IndexRecord)}
    (hbelow : ∀ count, Reader.Stable (below count)) (expected count : Nat) :
    Reader.Stable (readSiblings below expected count) := by
  induction count with
  | zero => exact Reader.stable_pure Forest.nil
  | succ count ih =>
    refine (IndexRecord.stable_read expected).bind fun record => ?_
    refine (hbelow _).bind fun children => ?_
    exact ih.bind fun later => Reader.stable_pure _

theorem stable_readLevel (levels expected count : Nat) :
    Reader.Stable (readLevel levels expected count) := by
  induction levels generalizing expected count with
  | zero => exact stable_readSiblings (fun _ => Reader.stable_pure Forest.nil) expected count
  | succ levels ih => exact stable_readSiblings (fun _ => ih _ _) expected count

theorem stable_read : Reader.Stable read := by
  refine (IndexRecord.stable_read 0).bind fun record => ?_
  exact (stable_readLevel _ _ _).bind fun below => Reader.stable_pure _

variable {index : Index}

/-- Wherever the bytes of an index are cut, the reader meets their end. -/
theorem WellFormed.read_take (h : index.WellFormed) {cut : Nat} (hcut : cut < index.encode.length) :
    read (index.encode.take cut) = .error .endOfStream := by
  have hwhole := h.read_append []
  rw [List.append_nil] at hwhole
  exact stable_read.take_of_lt hwhole hcut

/-! ## The main statement -/

/-- An index whose records stand in their places is read back whatever follows it, and if it is
    cut, the reader says that the bytes end.  Only such indexes are read at all, and what was
    taken off the front for one is its bytes once the unused fields are cleared. -/
theorem parse_inverts_encode (index : Index) :
    (index.WellFormed → (∀ rest, parse (index.encode ++ rest) = .ok index) ∧
      ∀ cut < index.encode.length, parse (index.encode.take cut) = .error .endOfStream) ∧
    ∀ bytes, parse bytes = .ok index → index.WellFormed ∧
      ∃ taken rest, read bytes = .ok (index, rest) ∧ bytes = taken ++ rest ∧
        taken.length = index.encode.length ∧
        IndexRecord.clearUnused index.labels taken = index.encode := by
  refine ⟨fun hformed => ⟨hformed.parse_append, fun cut hcut => ?_⟩, fun bytes hparse => ?_⟩
  · rw [parse, hformed.read_take hcut]
    rfl
  · obtain ⟨⟨found, rest⟩, hread, hsame⟩ := Outcome.bind_eq_ok_iff.mp hparse
    obtain rfl : found = index := Except.ok.inj hsame
    obtain ⟨hformed, taken, hbytes, hspelled⟩ := spelled_of_read hread
    obtain ⟨hclear, hlength⟩ := hspelled.clearUnused_eq
    exact ⟨hformed, taken, rest, hread, hbytes, hlength, hclear⟩

/-- Two records, the lower one under another key than its directory entry and ancestor say. -/
def skewed : Index where
  label := { id := 1, depth := 0, directories := [⟨2, 5⟩], files := [⟨7, -3⟩], ancestors := [] }
  below := .cons { id := 9, depth := 1, directories := [], files := [], ancestors := [4] } .nil .nil

/-- The bytes of `skewed` with ones in the unused fields. -/
def stained : Bytes :=
  skewed.labels.flatMap fun record => record.front ++ Bytes.ofUInt32 0xFFFFFFFF ++ record.back

theorem parse_inverts_encode_skewed :
    skewed.WellFormed ∧ parse (skewed.encode ++ [0x2A]) = .ok skewed ∧
      parse (skewed.encode.take 100) = .error .endOfStream ∧
      stained ≠ skewed.encode ∧ parse stained = .ok skewed ∧
      ∃ taken rest, read stained = .ok (skewed, rest) ∧ stained = taken ++ rest ∧
        IndexRecord.clearUnused skewed.labels taken = skewed.encode := by
  have hformed : skewed.WellFormed := by decide
  have hstained : parse stained = .ok skewed := by rfl
  obtain ⟨hinverse, honly⟩ := parse_inverts_encode skewed
  obtain ⟨happend, hcut⟩ := hinverse hformed
  obtain ⟨-, taken, rest, hread, hbytes, -, hclear⟩ := honly stained hstained
  refine ⟨hformed, happend [0x2A], hcut 100 (by decide), by decide, hstained, taken, rest, hread,
    hbytes, hclear⟩

end Index

end HashArchive
