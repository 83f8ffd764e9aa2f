/-
  HashArchive.Archive.Merge

  Laying one archive over another: every directory and file of the source is added at
  its own place, with files replacing those of their keys.  The files that are added
  are independent of the streams of the source.
-/
import HashArchive.Archive.Edit

namespace HashArchive.Archive

/-- An archive into which files are being merged, and the error that stopped it. -/
abbrev Merging := Archive × Option ArchiveError

/-- How a merge reads its source and keys what it adds. -/
structure MergeMode where
  streams : Streams
  keepDuplicates : Bool
  /-- The name of the source's root. -/
  sourceName : String

namespace MergeMode

/-- The key of a file of the source: its name, or its whole path there. -/
def key (mode : MergeMode) (location : Location) (name : String) : String :=
  if mode.keepDuplicates then "/".intercalate (mode.sourceName :: location) ++ "/" ++ name
  else name

end MergeMode

/-- Adds files to a directory until one cannot be read. -/
def mergeFiles (mode : MergeMode) (location : Location) : List Entry → Archive → Merging
  | [], archive => (archive, none)
  | entry :: entries, archive =>
    match entry.source.detached mode.streams with
    | .error error => (archive, some error)
    | .ok source =>
      mergeFiles mode location entries
        (archive.putFile location
          { name := entry.name, key := mode.key location entry.name, source })

/-- Adds the subdirectories that are missing, the last first. -/
def mergeSubdirectories (location : Location) (below : Forest Directory) (archive : Archive) :
    Archive :=
  below.trees.reverse.foldl
    -- The order shows only in the numbers of the new directories.
    (fun archive tree => (archive.enter location (.name tree.label.name)).1) archive

/-- Adds the files of a directory, and then its subdirectories without what they hold. -/
def mergeDirectory (mode : MergeMode) (location : Location) (tree : Tree Directory)
    (archive : Archive) : Merging :=
  match mergeFiles mode location tree.label.listing archive with
  | (archive, some error) => (archive, some error)
  | (archive, none) => (mergeSubdirectories location tree.below archive, none)

/-- Adds what the directories of a forest hold, in preorder. -/
def mergeForest (mode : MergeMode) : Forest Directory → (above : Location) → Archive → Merging
  | .nil, _, archive => (archive, none)
  | .cons directory below rest, above, archive =>
    match mergeDirectory mode (above ++ [directory.name]) ⟨directory, below⟩ archive with
    | (archive, some error) => (archive, some error)
    | (archive, none) =>
      match mergeForest mode below (above ++ [directory.name]) archive with
      | (archive, some error) => (archive, some error)
      | (archive, none) => mergeForest mode rest above archive

/-- Merges a source into an archive, whose setting for duplicates becomes the one given.
    When a file cannot be read, what was added before it stays. -/
def merge (archive source : Archive) (streams : Streams) (keepDuplicates : Bool) : Merging :=
  let archive := { archive with policy := { archive.policy with keepDuplicates } }
  let mode : MergeMode := { streams, keepDuplicates, sourceName := source.name }
  match mergeDirectory mode [] source.root archive with
  | (archive, some error) => (archive, some error)
  | (archive, none) => mergeForest mode source.root.below [] archive

/-- The source after it has been merged. -/
def afterMerge (source : Archive) (streams : Streams) : Archive :=
  source.settle streams
    (readThrough (fun file => (file.entry.source.detached streams).isOk) source.files)

end HashArchive.Archive
