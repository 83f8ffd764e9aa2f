/-
  HashArchive.Index.Record

  The records of an index, one for each directory, and their bytes.  A record names
  its subdirectories and files by keys; the records of the subdirectories follow it,
  so an index is a tree of records laid out in preorder.
-/
import HashArchive.Forest
import HashArchive.Reader

namespace HashArchive

open Guarding (lift demand)

variable {ε : Type} [Guarding ε]

/-- One name in an index record and the place it leads to: for a directory the distance
    from this record to its own, for a file the distance from the data region's start. -/
structure IndexEntry where
  key : UInt64
  offset : Int64
deriving DecidableEq, Repr, Inhabited

namespace IndexEntry

/-- The entry as bytes. -/
def encode (entry : IndexEntry) : Bytes := Bytes.ofUInt64 entry.key ++ Bytes.ofInt64 entry.offset

/-- Takes an entry off the front. -/
def read : Reader IndexEntry := fun bytes => do
  let (key, bytes) ← Reader.uint64 bytes
  let (offset, bytes) ← Reader.int64 bytes
  return ({ key, offset }, bytes)

end IndexEntry

/-- The index record of one directory; its ancestors are listed nearest first. -/
structure IndexRecord where
  id : UInt64
  depth : Int32
  directories : List IndexEntry
  files : List IndexEntry
  ancestors : List UInt64
deriving DecidableEq, Repr, Inhabited

/-- An index: the record of the root directory above those of all others. -/
abbrev Index := Tree IndexRecord

namespace IndexRecord

/-! ## Bytes -/

/-- A record as bytes, without the records below it. -/
def encode (record : IndexRecord) : Bytes :=
  Format.recordTag ++ Bytes.ofUInt64 record.id
    ++ Bytes.ofNat 4 record.directories.length ++ Bytes.ofNat 4 record.files.length
    ++ Bytes.ofInt32 record.depth ++ Bytes.ofUInt32 0
    ++ (record.directories ++ record.files).flatMap IndexEntry.encode
    ++ record.ancestors.flatMap Bytes.ofUInt64

/-- Takes a record off the front, which has to be at the expected depth. -/
def read (expected : Nat) : ReaderIn ε IndexRecord := fun bytes => do
  let (tag, bytes) ← lift (Reader.exactly Format.recordTag.length bytes)
  if tag ≠ Format.recordTag then
    lift (.error (.corrupt (.recordTag tag)))
  else
    let (id, bytes) ← lift (Reader.uint64 bytes)
    let (directoryCount, bytes) ← Reader.count .directories bytes
    let (fileCount, bytes) ← Reader.count .files bytes
    let (depth, bytes) ← lift (Reader.int32 bytes)
    let (_, bytes) ← lift (Reader.uint32 bytes)
    -- The expected depth is one more than a depth that has been read.
    demand ((expected : Int) ≤ Int32.maxValue.toInt) do
      -- A record at a wrong depth is refused before its entries are read.
      if depth.toInt ≠ expected ∨ (Format.maxDepth : Int) < depth.toInt then
        lift (.error (.corrupt (.depth id depth.toInt expected)))
      else
        let (directories, bytes) ← lift (Reader.times IndexEntry.read directoryCount bytes)
        let (files, bytes) ← lift (Reader.times IndexEntry.read fileCount bytes)
        demand (0 ≤ depth.toInt) do
          let (ancestors, bytes) ← lift (Reader.times Reader.uint64 depth.toInt.toNat bytes)
          return ({ id, depth, directories, files, ancestors }, bytes)

end IndexRecord

namespace Index

/-- An index as bytes: its records in preorder. -/
def encode (index : Index) : Bytes := index.labels.flatMap IndexRecord.encode

/-- As many sibling records as given at the expected depth, each with the records below
    it, which `below` reads. -/
def readSiblings (below : (count : Nat) → ReaderIn ε (Forest IndexRecord)) (expected : Nat) :
    (count : Nat) → ReaderIn ε (Forest IndexRecord)
  | 0 => fun bytes => .ok (.nil, bytes)
  | count + 1 => fun bytes => do
    let (record, bytes) ← IndexRecord.read expected bytes
    let (children, bytes) ← below record.directories.length bytes
    let (rest, bytes) ← readSiblings below expected count bytes
    return (.cons record children rest, bytes)

/-- Sibling records at a depth with `levels` more depths allowed from there on; a record
    beyond the last level is refused for its depth. -/
def readLevel : (levels expected count : Nat) → ReaderIn ε (Forest IndexRecord)
  | 0, expected => readSiblings (fun _ bytes => demand False (.ok (.nil, bytes))) expected
  | levels + 1, expected => readSiblings (readLevel levels (expected + 1)) expected

/-- Takes an index off the front. -/
def read : ReaderIn ε Index := fun bytes => do
  let (record, bytes) ← IndexRecord.read 0 bytes
  let (below, bytes) ← readLevel Format.maxDepth 1 record.directories.length bytes
  return (⟨record, below⟩, bytes)

/-- The index that a block holds; bytes after it are ignored. -/
def parse (bytes : Bytes) : Except ε Index := do
  let (index, _) ← read bytes
  return index

/-! ## Looking into an index -/

/-- How many directories and how many files the index has records and entries for. -/
def totals (index : Index) : Nat × Nat :=
  (index.size, (index.labels.flatMap (·.files)).length)

/-- The index of the first record directly below with the given id. -/
def child? (index : Index) (key : UInt64) : Option Index :=
  index.below.trees.find? (·.label.id == key)

end Index

end HashArchive
