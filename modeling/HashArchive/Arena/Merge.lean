/-
  HashArchive.Arena.Merge

  Laying one arena over another.  The loop goes through the directories of the source with a
  stack, on which each stands beside the directory that it is laid over.
-/
import HashArchive.Arena.Edit

namespace HashArchive.Arena

variable {ι : Type} [Handle ι]

/-- What a merge takes its files from, and how it keys what it adds. -/
structure Merge (ι : Type) [Handle ι] where
  source : Arena ι
  streams : Streams
  keepDuplicates : Bool

namespace Merge

/-- The key of a file of the source: its name, or its whole path there. -/
def key (merge : Merge ι) (file : File ι) : Query String :=
  if merge.keepDuplicates then merge.source.fullPath file else return file.name

/-- Adds a file of the source to a directory. -/
def addFile (merge : Merge ι) (id : ι) (file : File ι) : Run ι Unit := do
  let key ← ask fun _ => merge.key file
  match file.source.detached merge.streams with
  | .error error => throw (.fault error)
  | .ok content =>
    let _ ← insertFile id file.name key content

variable (next : ι → Option ι)

/-- Enters a subdirectory of the source and puts it on the stack beside the directory that was
    entered. -/
def enter (merge : Merge ι) (id : ι) (pending : List (ι × ι)) (child : ι) :
    Run ι (List (ι × ι)) := do
  let node ← ask fun _ => merge.source.node child
  let below ← enterAll next id [.name node.name]
  return (child, below) :: pending

/-- Merges the directories on a stack, each into the one that stands beside it. -/
def loop (merge : Merge ι) : List (ι × ι) → Run ι Unit
  | [] => return
  | (source, target) :: pending => do
    let files ← ask fun _ => merge.source.sortedFiles source
    files.forM (merge.addFile target)
    let below ← ask fun _ => merge.source.sortedSubdirectories source
    let pending ← below.reverse.foldlM (merge.enter next target) pending
    merge |>.loop pending
partial_fixpoint

end Merge

/-- Merges a source into an arena, whose setting for duplicates becomes the one given. -/
def mergeFrom (next : ι → Option ι) (source : Arena ι) (streams : Streams)
    (keepDuplicates : Bool) : Run ι Unit := do
  modify fun arena => { arena with policy := { arena.policy with keepDuplicates } }
  Merge.loop next { source, streams, keepDuplicates } [(Handle.root, Handle.root)]

end HashArchive.Arena
