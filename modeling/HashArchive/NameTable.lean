/-
  HashArchive.NameTable

  The table that leads from keys back to names.  It is a sequence of records, each a
  key and the name's UTF-16 units; the first record with a key counts.
-/
import HashArchive.Name
import HashArchive.Reader

namespace HashArchive

open Outcome

open Guarding (lift ok_of_lift)

variable {ε : Type} [Guarding ε]

/-- One name and the key it is stored under. -/
structure NameRecord where
  key : UInt64
  name : String
deriving DecidableEq, Repr

/-- The records of a name table, in order. -/
structure NameTable where
  records : List NameRecord
deriving DecidableEq, Repr

namespace NameRecord

/-- A name under its own key, as bytes. -/
def encode (name : String) : Bytes :=
  -- The units keep their case; only the key is case-blind.
  let units := Text.Utf16.encode name.toList
  Bytes.ofUInt64 (Name.key .utf16 name) ++ Bytes.ofNat 4 units.length ++ Text.Utf16.toBytes units

/-- Takes a record off the front. -/
def read : ReaderIn ε NameRecord := fun bytes => do
  let (key, bytes) ← lift (Reader.uint64 bytes)
  let (count, bytes) ← Reader.count .nameUnits bytes
  let (units, bytes) ← lift (Reader.times Reader.uint16 count bytes)
  return ({ key, name := String.ofList (Text.Utf16.decode units) }, bytes)

/-- A record takes at least the bytes of its key off the front. -/
theorem length_lt_of_read {bytes rest : Bytes} {record : NameRecord}
    (h : (read bytes : Except ε (NameRecord × Bytes)) = .ok (record, rest)) :
    rest.length < bytes.length := by
  obtain ⟨⟨key, bytes₁⟩, hkey, h⟩ := bind_eq_ok_iff.mp h
  obtain ⟨⟨count, bytes₂⟩, hcount, h⟩ := bind_eq_ok_iff.mp h
  obtain ⟨⟨units, bytes₃⟩, hunits, h⟩ := bind_eq_ok_iff.mp h
  obtain ⟨-, rfl⟩ := pure_pair_eq_ok_iff.mp h
  have h₁ := Reader.length_of_uint64 (ok_of_lift hkey)
  have h₂ := Reader.length_of_count hcount
  have h₃ := Reader.length_of_times Reader.length_of_uint16 (ok_of_lift hunits)
  omega

end NameRecord

namespace NameTable

/-! ## Bytes -/

/-- The records of a byte string that holds nothing else. -/
def parseRecords (bytes : Bytes) : Except ε (List NameRecord) :=
  if bytes = [] then
    .ok []
  else
    match _taken : (NameRecord.read bytes : Except ε (NameRecord × Bytes)) with
    | .error error => .error error
    | .ok (record, rest) => do
      let others ← parseRecords rest
      return record :: others
termination_by bytes.length
decreasing_by exact NameRecord.length_lt_of_read _taken

/-- The name table that a byte string holds. -/
def parse (bytes : Bytes) : Except ε NameTable := do
  let records ← parseRecords bytes
  return { records }

/-- The table of a list of names, each at its first place only. -/
def encode (names : List String) : Bytes := names.eraseDups.flatMap NameRecord.encode

/-! ## Looking names up -/

/-- The name of the first record with the key. -/
def get? (table : NameTable) (key : UInt64) : Option String :=
  (table.records.find? (·.key == key)).map (·.name)

/-- The name under a key, or the fault that there is none. -/
def resolve (table : NameTable) (key : UInt64) : Except ArchiveError String :=
  match table.get? key with
  | some name => .ok name
  | none => .error (.corrupt (.unnamed key))

/-- The number of different keys. -/
def size (table : NameTable) : Nat := (table.records.map (·.key)).eraseDups.length

end NameTable

end HashArchive
