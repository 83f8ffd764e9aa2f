/-
  HashArchive.Archive.Basic

  Archives: a tree of directories, the number for the next new directory, and the
  settings; and the lists of all directories and files in the one order in which they
  are shown, written and merged.
-/
import HashArchive.Archive.Directory
import HashArchive.Policy

namespace HashArchive

/-- An archive. -/
structure Archive where
  root : Tree Directory
  nextId : DirectoryId := 1
  policy : Policy := {}
deriving DecidableEq, Repr

/-- A directory of an archive and the names that lead to it. -/
structure Place where
  location : Location
  tree : Tree Directory
deriving DecidableEq, Repr

namespace Place

/-- The directory's number. -/
def id (place : Place) : DirectoryId := place.tree.label.id

/-- The directory's name. -/
def name (place : Place) : String := place.tree.label.name

/-- How many directories are above it. -/
def depth (place : Place) : Nat := place.location.length

/-- The subdirectory of a name. -/
def subdirectory? (place : Place) (name : String) : Option DirectoryId :=
  (place.tree.below.descend? [name]).map (·.label.id)

end Place

/-- A file of an archive and the directory that holds it. -/
structure StoredFile where
  place : Place
  entry : Entry
deriving DecidableEq, Repr

/-- Where a file is kept: its directory and its key. -/
structure FileAddress where
  location : Location
  key : String
deriving DecidableEq, Repr

namespace StoredFile

/-- Where the file is kept. -/
def address (file : StoredFile) : FileAddress := ⟨file.place.location, file.entry.key⟩

/-- The path of the file below the root. -/
def relativePath (file : StoredFile) : String :=
  "/".intercalate (file.place.location ++ [file.entry.name])

end StoredFile

namespace Forest

/-- The directories of a forest in preorder, with the names above the forest put before
    their own. -/
def places (above : Location) : Forest Directory → List Place
  | nil => []
  | cons directory below rest =>
    ⟨above ++ [directory.name], ⟨directory, below⟩⟩
      :: (below.places (above ++ [directory.name]) ++ rest.places above)

end Forest

namespace Archive

/-- The number of every root. -/
def rootId : DirectoryId := 0

/-- An archive with a name and nothing in it. -/
def new (name : String) : Archive := { root := ⟨{ id := rootId, name }, .nil⟩ }

/-- The name of the root. -/
def name (archive : Archive) : String := archive.root.label.name

/-- Gives the root another name. -/
def setName (archive : Archive) (name : String) : Archive :=
  { archive with root := archive.root.updateRoot fun root => { root with name } }

/-! ## Directories -/

/-- The directory that the names lead to. -/
def descend? (archive : Archive) (location : Location) : Option (Tree Directory) :=
  archive.root.descend? location

/-- All directories: the root first, each before those below it, and siblings in the
    order of their names. -/
def places (archive : Archive) : List Place :=
  ⟨[], archive.root⟩ :: archive.root.below.places []

/-- The directory with a number. -/
def place? (archive : Archive) (id : DirectoryId) : Option Place :=
  archive.places.find? (·.id == id)

/-- The number of the directory above, which the root has not. -/
def parent? (archive : Archive) (place : Place) : Option DirectoryId :=
  if place.location = [] then none
  else (archive.descend? place.location.dropLast).map (·.label.id)

/-- The path of a directory, from the root's own name on. -/
def directoryPath (archive : Archive) (location : Location) : String :=
  "/".intercalate (archive.name :: location)

/-! ## Files -/

/-- All files: directory by directory, and in each in the order of their names. -/
def files (archive : Archive) : List StoredFile :=
  archive.places.flatMap fun place => place.tree.label.listing.map fun entry => ⟨place, entry⟩

/-- The file at an address. -/
def file? (archive : Archive) (address : FileAddress) : Option StoredFile := do
  let tree ← archive.descend? address.location
  let entry ← tree.label.file? address.key
  return ⟨⟨address.location, tree⟩, entry⟩

/-- The path of a file, from the root's own name on. -/
def fullPath (archive : Archive) (file : StoredFile) : String :=
  archive.directoryPath file.place.location ++ "/" ++ file.entry.name

/-- The case-sensitive key of the place where a file is kept. -/
def fileKey (archive : Archive) (file : StoredFile) : UInt64 :=
  Name.locationKey (archive.directoryPath file.place.location ++ "/" ++ file.entry.key)

/-- Changes the source of a file. -/
def updateSource (archive : Archive) (address : FileAddress) (f : Source → Source) : Archive :=
  { archive with
    root := archive.root.update (Tree.updateRoot (·.updateSource address.key f)) address.location }

/-- The archive after files of it have been read: their lazy sources keep the headers
    there were to read. -/
def settle (archive : Archive) (streams : Streams) (files : List StoredFile) : Archive :=
  files.foldl (fun archive file => archive.updateSource file.address (·.settled streams)) archive

/-- The files at the front of a list up to the first one that a read fails on, that one
    included. -/
def readThrough (succeeds : StoredFile → Bool) : List StoredFile → List StoredFile
  | [] => []
  | file :: files => if succeeds file then file :: readThrough succeeds files else [file]

end Archive

end HashArchive
