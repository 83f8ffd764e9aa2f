/-
  HashArchive.Archive.Write

  Archives as bytes: the magic bytes, the length of the data region, the data region
  with a record for each file, and the metadata blocks.  The length is not known before
  the data region has been written, so its field is filled in afterwards.
-/
import HashArchive.Index.Layout
import HashArchive.Metadata
import HashArchive.NameTable

namespace HashArchive.Archive

/-! ## The data region -/

/-- How a file is stored: packed when the settings say so and plain otherwise, whatever
    its source is; bytes that are already as they should be are kept. -/
def storedForm (streams : Streams) (policy : Policy) (name : String) (source : Source)
    (deflate : Bytes → Bytes := Deflate.store) : Except ArchiveError (RecordHeader × Bytes) := do
  let current ← source.header streams
  let stored ← source.stored streams
  let compressed := policy.compresses name
  let (contentSize, data) ←
    match compressed, current.compressed with
    | true, false => .ok (current.contentSize, Packed.pack stored deflate)
    -- The size is counted anew, since the header it came with may be wrong.
    | false, true => do
      let content ← Packed.unpack stored
      let size ← Source.sizeField content.length
      .ok (size, content)
    | _, _ => .ok (current.contentSize, stored)
  let storedSize ← Source.sizeField data.length
  return ({ compressed, contentSize, storedSize }, data)

/-- The record of a file in the data region: its header and its data. -/
def fileRecord (archive : Archive) (streams : Streams) (file : StoredFile)
    (deflate : Bytes → Bytes := Deflate.store) : Except ArchiveError Bytes := do
  let (header, data) ← storedForm streams archive.policy file.entry.name file.entry.source deflate
  return header.encode ++ data

/-- Writes the records of files one after another, and lists where each begins, by the
    key of the file's place. -/
def writeRecords {σ : Type} [Output σ] (archive : Archive) (streams : Streams)
    (deflate : Bytes → Bytes := Deflate.store) :
    List StoredFile → σ → Except ArchiveError (σ × List (UInt64 × Nat))
  | [], output => .ok (output, [])
  | file :: files, output => do
    let record ← archive.fileRecord streams file deflate
    let (after, offsets) ← archive.writeRecords streams deflate files (Output.write output record)
    return (after, (archive.fileKey file, Output.position output - Format.dataStart) :: offsets)

/-- Where the data of the file with a key begins; of several files with one key, the last
    one counts. -/
def offset? (offsets : List (UInt64 × Nat)) (key : UInt64) : Option Int64 :=
  (Index.latest? offsets key).map Int64.ofNat

/-! ## The metadata -/

/-- What the index in an encoding is built for. -/
def plan (archive : Archive) (encoding : Encoding) (offsets : List (UInt64 × Nat)) : Index.Plan :=
  { encoding, rootName := archive.name, fileOffset? := offset? offsets }

/-- The index in an encoding. -/
def index (archive : Archive) (encoding : Encoding) (offsets : List (UInt64 × Nat)) :
    Except ArchiveError Index :=
  (archive.plan encoding offsets).build archive.root

/-- The names in the order of the name table: those of the files, of the directories, and
    of the root. -/
def names (archive : Archive) : List String :=
  archive.files.map (·.entry.name) ++ archive.places.tail.map (·.name) ++ [archive.name]

/-- The payload of the block with the name table. -/
def namePayload (archive : Archive) (deflate : Bytes → Bytes := Deflate.store) :
    Except ArchiveError Bytes := do
  let table := NameTable.encode archive.names
  let packed := Packed.pack table deflate
  let contentSize ← Source.sizeField table.length
  let storedSize ← Source.sizeField packed.length
  return Metadata.wrapNames contentSize storedSize packed

/-! ## The whole archive -/

/-- Writes the archive at the start of an empty output. -/
def writeTo {σ : Type} [Output σ] (archive : Archive) (streams : Streams) (output : σ)
    (deflate : Bytes → Bytes := Deflate.store) : Except ArchiveError σ := do
  let output := Output.write output Format.magic
  let lengthField := Output.position output
  let output := Output.write output (Bytes.ofInt64 0)
  let dataStart := Output.position output
  let (output, offsets) ← archive.writeRecords streams deflate archive.files output
  -- The cursor goes back to the length field and then on to where it was.
  let metadataStart := Output.position output
  let length := Int64.ofNat (metadataStart - dataStart)
  let output := Output.write (Output.seek output lengthField) (Bytes.ofInt64 length)
  let output := Output.seek output metadataStart
  let utf16 ← archive.index .utf16 offsets
  let output := Output.write output (BlockKind.utf16Index.encode utf16.encode)
  let utf8 ← archive.index .utf8 offsets
  let output := Output.write output (BlockKind.utf8Index.encode utf8.encode)
  let payload ← archive.namePayload deflate
  return Output.write output (BlockKind.names.encode payload)

/-- The archive as bytes. -/
def write (archive : Archive) (streams : Streams) (deflate : Bytes → Bytes := Deflate.store) :
    Except ArchiveError Bytes := do
  let output ← archive.writeTo streams ({ bytes := [] } : Stream) deflate
  return output.bytes

end HashArchive.Archive
