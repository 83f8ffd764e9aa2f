/-
  HashArchive.Archive.Directory

  Directories and their files, and forests of directories addressed by names.  Files
  are kept by their keys and subdirectories by their names, so a forest that is built
  by these operations is determined by what it holds.
-/
import HashArchive.Forest
import HashArchive.Name
import HashArchive.Sorted
import HashArchive.Source

namespace HashArchive

/-! ## Files -/

/-- A file of a directory.  Its key tells it apart from the other files there; its name
    need not. -/
structure Entry where
  name : String
  key : String
  source : Source
deriving DecidableEq, Repr

namespace Entry

/-- Files are listed by their names, and those of one name by their keys. -/
def before (a b : Entry) : Bool := Name.before a.name b.name || (a.name == b.name && a.key < b.key)

/-- Puts a file among others in the order of their keys, in place of the one that has its
    key. -/
def put (entry : Entry) : List Entry → List Entry
  | [] => [entry]
  | other :: rest =>
    if other.key < entry.key then other :: put entry rest
    else if other.key = entry.key then entry :: rest
    else entry :: other :: rest

end Entry

/-- What a directory has of its own: its number, its name, and its files in the order of
    their keys. -/
structure Directory where
  id : DirectoryId
  name : String
  files : List Entry := []
deriving DecidableEq, Repr

namespace Directory

/-- Directories are listed by their names. -/
def before (a b : Directory) : Bool := Name.before a.name b.name

/-- The file with a key. -/
def file? (directory : Directory) (key : String) : Option Entry :=
  directory.files.find? (·.key == key)

/-- The file that a name leads to: the one that has it for a key, or else the first that
    has it for a name. -/
def fileNamed? (directory : Directory) (name : String) : Option Entry :=
  directory.file? name <|> directory.files.find? (·.name == name)

/-- The files as they are listed. -/
def listing (directory : Directory) : List Entry := Sorted.sort Entry.before directory.files

/-- Adds a file, in place of the one that has its key. -/
def put (directory : Directory) (entry : Entry) : Directory :=
  { directory with files := entry.put directory.files }

/-- Removes the file with a key. -/
def remove (directory : Directory) (key : String) : Directory :=
  { directory with files := directory.files.filter (·.key != key) }

/-- Changes the source of the file with a key. -/
def updateSource (directory : Directory) (key : String) (f : Source → Source) : Directory :=
  { directory with
    files := directory.files.map fun entry =>
      if entry.key = key then { entry with source := f entry.source } else entry }

end Directory

/-- The names that lead from the root to a directory, the root's own left out. -/
abbrev Location := List String

namespace Forest

/-! ## Addressing by names -/

/-- The tree that the names lead to. -/
def descend? : Forest Directory → Location → Option (Tree Directory)
  | cons directory below rest, name :: names =>
    if directory.name = name then
      match names with
      | [] => some ⟨directory, below⟩
      | _ => below.descend? names
    else
      rest.descend? (name :: names)
  | _, _ => none

/-- Changes the tree that the names lead to. -/
def update (f : Tree Directory → Tree Directory) : Forest Directory → Location → Forest Directory
  | cons directory below rest, name :: names =>
    if directory.name = name then
      match names with
      | [] => cons (f ⟨directory, below⟩).label (f ⟨directory, below⟩).below rest
      | _ => cons directory (below.update f names) rest
    else
      cons directory below (rest.update f (name :: names))
  | forest, _ => forest

/-- Removes the tree of a name. -/
def remove (name : String) : Forest Directory → Forest Directory
  | nil => nil
  | cons directory below rest =>
    if directory.name = name then rest else cons directory below (rest.remove name)

end Forest

namespace Tree

/-- The tree that the names lead to from the root; no names lead to the root itself. -/
def descend? (tree : Tree Directory) : Location → Option (Tree Directory)
  | [] => some tree
  | names => tree.below.descend? names

/-- Changes the tree that the names lead to from the root. -/
def update (f : Tree Directory → Tree Directory) (tree : Tree Directory) :
    Location → Tree Directory
  | [] => f tree
  | names => ⟨tree.label, tree.below.update f names⟩

/-- Adds a directory among the subdirectories. -/
def addBelow (directory : Directory) (tree : Tree Directory) : Tree Directory :=
  ⟨tree.label, tree.below.insert Directory.before ⟨directory, .nil⟩⟩

/-- Removes the subdirectory of a name, with all below it. -/
def removeBelow (name : String) (tree : Tree Directory) : Tree Directory :=
  ⟨tree.label, tree.below.remove name⟩

/-- Changes what the directory has of its own. -/
def updateRoot (f : Directory → Directory) (tree : Tree Directory) : Tree Directory :=
  ⟨f tree.label, tree.below⟩

end Tree

end HashArchive
