/-
  HashArchive.Proofs.NameTable.Records

  Any bytes as a name table.  They are a run of whole records and a tail that does not begin
  with one (`NameTable.exists_whole_append`).  The records are read one after another, and then
  the tail decides: without one there is a table, and otherwise the fault is in its first
  record (`NameTable.parseRecords_append`, `NameTable.parseRecords_of_broken`).
-/
import Mathlib
import HashArchive.NameTable
import HashArchive.Proofs.Reader.Fronts
import HashArchive.Proofs.Text.Utf16

namespace HashArchive

namespace NameRecord

/-- A record as its bytes have it: any key, and any units, which need not be those of a text. -/
structure Raw where
  key : UInt64
  units : List UInt16
deriving DecidableEq

namespace Raw

/-- The number of units fits its field. -/
def Fits (raw : Raw) : Prop := raw.units.length < 2 ^ 31

instance decidableFits (raw : Raw) : Decidable raw.Fits := inferInstanceAs (Decidable (_ < _))

/-- The record as bytes. -/
def encode (raw : Raw) : Bytes :=
  Bytes.ofUInt64 raw.key ++ Bytes.ofNat 4 raw.units.length ++ Text.Utf16.toBytes raw.units

/-- What the record is read as. -/
def record (raw : Raw) : NameRecord := ⟨raw.key, String.ofList (Text.Utf16.decode raw.units)⟩

/-- A record takes some bytes. -/
theorem length_encode_pos (raw : Raw) : 0 < raw.encode.length := by
  simp only [encode, Bytes.ofUInt64, List.length_append, Bytes.length_ofNat]
  omega

end Raw

variable {bytes rest : Bytes}

theorem read_eq_ok_iff {record : NameRecord} :
    read bytes = .ok (record, rest) ↔
      ∃ raw : Raw, raw.Fits ∧ raw.record = record ∧ bytes = raw.encode ++ rest := by
  constructor
  · intro h
    obtain ⟨⟨key, bytes₁⟩, hkey, h⟩ := Outcome.bind_eq_ok_iff.mp h
    obtain ⟨⟨count, bytes₂⟩, hcount, h⟩ := Outcome.bind_eq_ok_iff.mp h
    obtain ⟨⟨units, bytes₃⟩, hunits, h⟩ := Outcome.bind_eq_ok_iff.mp h
    obtain ⟨rfl, rfl⟩ := Outcome.pure_pair_eq_ok_iff.mp h
    obtain rfl := Reader.uint64_eq_ok_iff.mp hkey
    obtain ⟨rfl, hfits⟩ := Reader.count_eq_ok_iff.mp hcount
    obtain ⟨rfl, rfl⟩ := (Reader.times_eq_ok_iff Reader.uint16_eq_ok_iff).mp hunits
    refine ⟨⟨key, units⟩, hfits, rfl, ?_⟩
    simp only [Raw.encode, Text.Utf16.toBytes, List.append_assoc]
  · rintro ⟨⟨key, units⟩, hfits, rfl, rfl⟩
    have hunits := (Reader.times_eq_ok_iff Reader.uint16_eq_ok_iff).mpr
      ⟨rfl, (rfl : Text.Utf16.toBytes units ++ rest = _)⟩
    rw [read, Raw.encode]
    dsimp only
    rw [List.append_assoc, List.append_assoc, Reader.uint64_append, Guarding.lift_eq, Outcome.ok_bind]
    dsimp only
    rw [Reader.count_append _ .nameUnits hfits, Outcome.ok_bind]
    dsimp only
    rw [hunits]
    rfl

/-! ## Records that are not whole -/

/-- The count of units that the bytes of a record have behind its key. -/
def countField (bytes : Bytes) : Int32 :=
  (UInt32.ofNat (Bytes.toNat ((bytes.drop 8).take 4))).toInt32

/-- What is wrong with a record that is not whole: its count is there and negative, or else
    the bytes end too early. -/
def faultOf (bytes : Bytes) : ArchiveError :=
  if 12 ≤ bytes.length ∧ countField bytes < 0 then
    .corrupt (.negativeCount .nameUnits (countField bytes).toInt)
  else
    .endOfStream

theorem countField_append (key : UInt64) (count : Int32) (rest : Bytes) :
    countField (Bytes.ofUInt64 key ++ (Bytes.ofInt32 count ++ rest)) = count := by
  have hkey : (Bytes.ofUInt64 key).length = 8 := rfl
  have hcount : (Bytes.ofInt32 count).length = 4 := rfl
  have hrange : count.toUInt32.toNat < 256 ^ 4 := count.toUInt32.toNat_lt
  have hvalue : Bytes.toNat (Bytes.ofInt32 count) = count.toUInt32.toNat := by
    rw [Bytes.ofInt32, Bytes.ofUInt32, Bytes.toNat_ofNat, Nat.mod_eq_of_lt hrange]
  rw [countField, List.drop_left' hkey, List.take_left' hcount, hvalue, UInt32.ofNat_toNat]
  rfl

/-- A count that is read is not negative. -/
theorem not_countField_neg {key : UInt64} {count : Nat}
    (h : Reader.count .nameUnits bytes = .ok (count, rest)) :
    ¬ countField (Bytes.ofUInt64 key ++ bytes) < 0 := by
  obtain ⟨⟨value, bytes₁⟩, hfield, hsign⟩ := Outcome.bind_eq_ok_iff.mp h
  obtain rfl := Reader.int32_eq_ok_iff.mp hfield
  rw [countField_append]
  intro hnegative
  dsimp only at hsign
  rw [if_pos hnegative] at hsign
  cases hsign

theorem eq_faultOf_of_read {error : ArchiveError} (h : read bytes = .error error) :
    error = faultOf bytes := by
  -- The first of the three fields that is not there says what the fault is.
  rcases Outcome.bind_eq_error_iff.mp h with hkey | ⟨⟨key, bytes₁⟩, hkey, hrest⟩
  · obtain ⟨hshort, rfl⟩ := Reader.uint64_eq_error_iff.mp hkey
    rw [faultOf, if_neg (by omega)]
  obtain rfl := Reader.uint64_eq_ok_iff.mp hkey
  have hkeyLength : (Bytes.ofUInt64 key).length = 8 := rfl
  dsimp only at hrest
  rcases Outcome.bind_eq_error_iff.mp hrest with hcount | ⟨⟨count, bytes₂⟩, hcount, hunits⟩
  · rcases Reader.count_eq_error_iff.mp hcount with ⟨hshort, rfl⟩ | ⟨n, bytes₂, rfl, hneg, rfl⟩
    · rw [faultOf, List.length_append, if_neg (by omega)]
    · have hcountLength : (Bytes.ofInt32 n).length = 4 := rfl
      rw [faultOf, countField_append, List.length_append, List.length_append,
        if_pos ⟨by omega, hneg⟩]
  · rw [faultOf, if_neg fun hboth => not_countField_neg hcount hboth.2]
    rcases Outcome.bind_eq_error_iff.mp hunits with hunits | ⟨⟨_, _⟩, -, hrecord⟩
    · exact Reader.times_of_error (fun hunit => (Reader.uint16_eq_error_iff.mp hunit).2) hunits
    · cases hrecord

/-- The bytes do not begin with a whole record. -/
def Broken (bytes : Bytes) : Prop := ∀ raw : Raw, raw.Fits → ¬ raw.encode <+: bytes

/-- A record that is not whole is refused, and the error says what is wrong with it. -/
theorem read_of_broken (h : Broken bytes) : read bytes = .error (faultOf bytes) := by
  cases hread : read bytes with
  | error error => rw [eq_faultOf_of_read hread]
  | ok found =>
    obtain ⟨raw, hfits, -, hbytes⟩ := read_eq_ok_iff.mp hread
    exact absurd ⟨found.2, hbytes.symm⟩ (h raw hfits)

theorem broken_iff : Broken bytes ↔ read bytes = .error (faultOf bytes) := by
  refine ⟨read_of_broken, fun hread raw hfits hfront => ?_⟩
  obtain ⟨rest, rfl⟩ := hfront
  rw [read_eq_ok_iff.mpr ⟨raw, hfits, rfl, rfl⟩] at hread
  cases hread

instance decidableBroken (bytes : Bytes) : Decidable (Broken bytes) :=
  decidable_of_iff _ broken_iff.symm

end NameRecord

/-! ## Runs of records -/

namespace NameTable

open NameRecord (Raw Broken)

/-- The bytes are records one after another, all of them whole. -/
structure Whole (raws : List Raw) (bytes : Bytes) : Prop where
  fits : ∀ raw ∈ raws, raw.Fits
  bytes_eq : bytes = raws.flatMap Raw.encode

instance decidableWhole (raws : List Raw) (bytes : Bytes) : Decidable (Whole raws bytes) :=
  decidable_of_iff ((∀ raw ∈ raws, raw.Fits) ∧ bytes = raws.flatMap Raw.encode)
    ⟨fun ⟨fits, bytes_eq⟩ => ⟨fits, bytes_eq⟩, fun ⟨fits, bytes_eq⟩ => ⟨fits, bytes_eq⟩⟩

/-- A record is taken off the front as long as there are bytes. -/
theorem parseRecords_of_ne_nil {ε : Type} [Guarding ε] {bytes : Bytes} (h : bytes ≠ []) :
    (parseRecords bytes : Except ε (List NameRecord))
      = (NameRecord.read bytes : Except ε _) >>= fun (record, rest) =>
          (parseRecords rest : Except ε _) >>= fun others => pure (record :: others) := by
  rw [parseRecords, if_neg h]
  split
  · next error herror => rw [herror, Outcome.error_bind]
  · next record rest hrecord => rw [hrecord, Outcome.ok_bind]

/-- Whole records are read one after another, and then what follows them. -/
theorem parseRecords_append {raws : List Raw} (h : ∀ raw ∈ raws, raw.Fits) (tail : Bytes) :
    parseRecords (raws.flatMap Raw.encode ++ tail)
      = (parseRecords tail).map (raws.map Raw.record ++ ·) := by
  induction raws with
  | nil =>
    rw [List.flatMap_nil, List.nil_append]
    cases parseRecords tail <;> rfl
  | cons raw raws ih =>
    rw [List.forall_mem_cons] at h
    have hbytes : raw.encode ++ (raws.flatMap Raw.encode ++ tail) ≠ [] := by
      have hlength := raw.length_encode_pos
      intro hnil
      rw [(List.append_eq_nil_iff.mp hnil).1] at hlength
      cases hlength
    have hread := NameRecord.read_eq_ok_iff.mpr
      ⟨raw, h.1, rfl, (rfl : raw.encode ++ (raws.flatMap Raw.encode ++ tail) = _)⟩
    rw [List.flatMap_cons, List.append_assoc, parseRecords_of_ne_nil hbytes, hread,
      Outcome.ok_bind]
    dsimp only
    rw [ih h.2]
    cases parseRecords tail <;> rfl

/-- Bytes that do not begin with a whole record are refused unless there are none. -/
theorem parseRecords_of_broken {bytes : Bytes} (h : Broken bytes) (hsome : bytes ≠ []) :
    parseRecords bytes = .error (NameRecord.faultOf bytes) := by
  rw [parseRecords_of_ne_nil hsome, NameRecord.read_of_broken h, Outcome.error_bind]

/-- All bytes are whole records and a tail that does not begin with one. -/
theorem exists_whole_append (bytes : Bytes) :
    ∃ raws : List Raw, ∃ tail, (∀ raw ∈ raws, raw.Fits) ∧ Broken tail ∧
      bytes = raws.flatMap Raw.encode ++ tail := by
  induction hlength : bytes.length using Nat.strong_induction_on generalizing bytes with
  | _ length ih =>
    by_cases hbroken : Broken bytes
    · exact ⟨[], bytes, List.forall_mem_nil _, hbroken, rfl⟩
    · rw [Broken] at hbroken
      push Not at hbroken
      obtain ⟨raw, hfits, rest, rfl⟩ := hbroken
      have hshorter : rest.length < length := by
        have hpos := raw.length_encode_pos
        rw [← hlength, List.length_append]
        omega
      obtain ⟨raws, tail, hraws, htail, rfl⟩ := ih _ hshorter rest rfl
      refine ⟨raw :: raws, tail, List.forall_mem_cons.mpr ⟨hfits, hraws⟩, htail, ?_⟩
      rw [List.flatMap_cons, List.append_assoc]

variable {bytes : Bytes}

/-- Whole records are read as a table. -/
theorem Whole.parse_eq {raws : List Raw} (h : Whole raws bytes) :
    parse bytes = .ok ⟨raws.map Raw.record⟩ := by
  have hrecords := parseRecords_append h.fits []
  have hnone : parseRecords [] = .ok [] := by
    rw [parseRecords]
    rfl
  rw [List.append_nil, hnone, ← h.bytes_eq] at hrecords
  rw [parse, hrecords]
  simp [Except.map, pure, Except.pure]

/-- Bytes are a name table if and only if they are whole records one after another. -/
theorem exists_parse_iff :
    (∃ table, parse bytes = .ok table) ↔ ∃ raws, Whole raws bytes := by
  constructor
  · rintro ⟨table, hparse⟩
    obtain ⟨raws, tail, hfits, hbroken, rfl⟩ := exists_whole_append bytes
    -- A tail would be refused.
    have htail : tail = [] := by
      by_contra hsome
      rw [parse, parseRecords_append hfits, parseRecords_of_broken hbroken hsome] at hparse
      cases hparse
    rw [htail, List.append_nil]
    exact ⟨raws, hfits, rfl⟩
  · rintro ⟨raws, hwhole⟩
    exact ⟨_, hwhole.parse_eq⟩

/-- Behind whole records, the first that is not whole decides what the error is. -/
theorem parse_eq_error_iff {error : ArchiveError} :
    parse bytes = .error error ↔
      ∃ raws front tail, Whole raws front ∧ bytes = front ++ tail ∧ tail ≠ [] ∧ Broken tail ∧
        error = NameRecord.faultOf tail := by
  constructor
  · intro hparse
    obtain ⟨raws, tail, hfits, hbroken, rfl⟩ := exists_whole_append bytes
    have htail : tail ≠ [] := by
      rintro rfl
      rw [List.append_nil, Whole.parse_eq ⟨hfits, rfl⟩] at hparse
      cases hparse
    rw [parse, parseRecords_append hfits, parseRecords_of_broken hbroken htail] at hparse
    exact ⟨raws, _, tail, ⟨hfits, rfl⟩, rfl, htail, hbroken, (Except.error.inj hparse).symm⟩
  · rintro ⟨raws, front, tail, ⟨hfits, rfl⟩, rfl, htail, hbroken, rfl⟩
    rw [parse, parseRecords_append hfits, parseRecords_of_broken hbroken htail]
    rfl

end NameTable

end HashArchive
