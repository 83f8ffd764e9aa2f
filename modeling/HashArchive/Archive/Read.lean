/-
  HashArchive.Archive.Read

  Archives from bytes.  The directories come from the UTF-16 index and their names from
  the name table; the UTF-8 index only has to have the same totals.  The contents of the
  files stay in the stream.
-/
import HashArchive.Archive.Edit
import HashArchive.Index.Record
import HashArchive.Metadata
import HashArchive.NameTable

namespace HashArchive.Archive

/-! ## The start of the archive -/

/-- Takes the magic bytes off the front. -/
def readMagic : Reader Unit := fun bytes =>
  let front := bytes.take Format.magic.length
  -- Eight bytes are enough to tell an encrypted archive, even a cut one.
  if Format.encryptedMagic.isPrefixOf front then .error .encrypted
  else if front = Format.magic then .ok ((), bytes.drop Format.magic.length)
  else if front.isPrefixOf Format.magic then .error .endOfStream
  else .error .badMagic

/-- A place in the archive that lies at a signed distance from the start of the data
    region, unless the sum is not a 64-bit number. -/
def positionOf? (offset : Int64) : Option Nat :=
  let position := (Format.dataStart : Int) + offset.toInt
  if 0 ≤ position ∧ position < UInt64.size then some position.toNat else none

/-- The payloads of the metadata blocks of an archive. -/
def readPayloads {ε : Type} [Guarding ε] (bytes : Bytes) : Except ε Metadata.Payloads := do
  let ((), rest) ← Guarding.lift (readMagic bytes)
  let (offset, _) ← Guarding.lift (Reader.int64 rest)
  match positionOf? offset with
  | none => Guarding.lift (.error (.corrupt (.offsetBeforeStart offset.toInt)))
  | some position => Metadata.scan (bytes.drop position)

/-! ## The tree -/

/-- What the tree is read from: the name table, and the stream that the contents stay
    in. -/
structure Origin where
  stream : StreamId
  names : NameTable

namespace Origin

/-- Adds the file of an index entry. -/
def addFile (origin : Origin) (location : Location) (archive : Archive) (entry : IndexEntry) :
    Except ArchiveError Archive := do
  let name ← origin.names.resolve entry.key
  match positionOf? entry.offset with
  | none => .error (.corrupt (.fileOffset name entry.offset.toInt))
  | some position =>
    let source := .deferred { stream := origin.stream, offset := UInt64.ofNat position }
    match Path.file? name with
    | none => .error (.noFileName name)
    | some (segments, fileName) => return (archive.putFileAt location segments fileName source).1

/-- Adds the files of an index record. -/
def addFiles (origin : Origin) (location : Location) (archive : Archive)
    (entries : List IndexEntry) : Except ArchiveError Archive :=
  entries.foldlM (origin.addFile location) archive

/-- A record found below another has fewer records below it. -/
theorem size_of_child? {index child : Index} {key : UInt64} (h : index.child? key = some child) :
    child.below.size < index.below.size := by
  obtain ⟨record, below⟩ := index
  unfold Index.child? at h
  induction below with
  | nil => cases h
  | cons label below rest _ ihRest =>
    simp only [Forest.trees, List.find?_cons] at h
    simp only [Forest.size] at ihRest ⊢
    split at h
    · cases h
      simp only
      omega
    · have := ihRest h
      omega

/-- Adds the directories of an index record with all below them.  An entry leads to the
    first record with its key. -/
def addDirectories (origin : Origin) (index : Index) (location : Location) (archive : Archive)
    (entries : List IndexEntry) : Except ArchiveError Archive :=
  match entries with
  | [] => .ok archive
  | entry :: entries =>
    match origin.names.resolve entry.key with
    | .error error => .error error
    | .ok name =>
      -- A name may hold separators, so it may lead more than one level down, or up.
      let (archive, place) := archive.enterAll location (Path.segments name)
      match _found : index.child? entry.key with
      | none => .error (.corrupt (.noRecord name entry.key))
      | some child =>
        match origin.addFiles place archive child.label.files with
        | .error error => .error error
        | .ok archive =>
          match origin.addDirectories child place archive child.label.directories with
          | .error error => .error error
          | .ok archive => origin.addDirectories index location archive entries
termination_by (index.below.size, entries.length)
decreasing_by
  · exact Prod.Lex.left _ _ (size_of_child? _found)
  · exact Prod.Lex.right _ (Nat.lt_succ_self _)

/-- Adds what an index record holds: its files, and then its directories. -/
def populate (origin : Origin) (index : Index) (location : Location) (archive : Archive) :
    Except ArchiveError Archive := do
  let archive ← origin.addFiles location archive index.label.files
  origin.addDirectories index location archive index.label.directories

end Origin

/-! ## Archives from bytes -/

/-- All that an archive is made from once its bytes have been taken apart. -/
structure Parts where
  origin : Origin
  index : Index
  /-- The name of the root. -/
  name : String

/-- Takes the bytes of a stream apart. -/
def readParts {ε : Type} [Guarding ε] (stream : StreamId) (bytes : Bytes) : Except ε Parts := do
  let payloads ← readPayloads bytes
  let index ← Index.parse payloads.utf16
  let utf8Index ← Index.parse payloads.utf8
  -- The UTF-8 index is read for its form, and only its totals are used.
  if utf8Index.totals ≠ index.totals then
    Guarding.lift (.error (.corrupt (.totals utf8Index.totals index.totals)))
  else
    let names ← NameTable.parse payloads.names
    let rootName ← Guarding.lift (names.resolve index.label.id)
    return { origin := { stream, names }, index, name := Path.lastPart rootName }

/-- Reads an archive from the bytes of a stream. -/
def read (stream : StreamId) (bytes : Bytes) : Except ArchiveError Archive := do
  let parts ← readParts stream bytes
  parts.origin.populate parts.index [] (new parts.name)

end HashArchive.Archive
