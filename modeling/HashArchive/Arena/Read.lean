/-
  HashArchive.Arena.Read

  Arenas from bytes.  The directory that the reader is in is a number, which is looked up each
  time it is used.
-/
import HashArchive.Archive.Read
import HashArchive.Arena.Edit

namespace HashArchive.Arena

open Archive

variable {ι : Type} [Handle ι]

/-- What a guarded step answers, as a look at an arena. -/
def Query.of {α : Type} (x : Guarded α) : Query α := some x

variable (next : ι → Option ι)

/-- Adds the file of an index entry. -/
def addEntry (origin : Origin) (id : ι) (entry : IndexEntry) : Run ι Unit := do
  let path ← ask fun _ => Query.of (Guarded.lift (origin.names.resolve entry.key))
  match positionOf? entry.offset with
  | none => throw (.fault (.corrupt (.fileOffset path entry.offset.toInt)))
  | some position =>
    let _ ← addFile next id path
      (.deferred { stream := origin.stream, offset := UInt64.ofNat position })

/-- Adds the files and the directories of an index record with all below them. -/
def populate (origin : Origin) (index : Index) (id : ι) : Run ι Unit := do
  index.label.files.forM (addEntry next origin id)
  index.label.directories.forM fun entry => do
    let name ← ask fun _ => Query.of (Guarded.lift (origin.names.resolve entry.key))
    let below ← ensureDirectory next id name
    match _found : index.child? entry.key with
    | none => throw (.fault (.corrupt (.noRecord name entry.key)))
    | some child => populate origin child below
termination_by index.below.size
decreasing_by exact Origin.size_of_child? _found

/-- Reads an arena from the bytes of a stream. -/
def read (stream : StreamId) (bytes : Bytes) : Query (Arena ι) := do
  let parts ← Query.of (readParts stream bytes)
  let steps := populate next parts.origin parts.index Handle.root
  match run steps (new parts.name) with
  | none => none
  | some (.error halt, _) => throw halt
  | some (.ok _, arena) => return arena

end HashArchive.Arena
