/-
  HashArchive.Arena.Basic

  Archives as they are kept: one flat table of the directories by their numbers, where each
  directory has the number of the one above it and those of the ones in it.  Nothing in the
  table says that these agree, that a number leads to a directory, or that the way up comes to
  an end.  So a look at an arena may meet a number without a directory, which is a trap, and it
  may go on for ever.
-/
import Std.Data.ExtTreeMap
import HashArchive.Archive.Directory
import HashArchive.Guard
import HashArchive.Path
import HashArchive.Policy

namespace HashArchive

/-! ## Numbers of directories -/

/-- What directories are numbered with, from the root on without gaps. -/
class Handle (ι : Type) extends Ord ι, Std.TransOrd ι, Std.LawfulEqOrd ι where
  toNat : ι → DirectoryId
  /-- The number of every root. -/
  root : ι
  /-- The first number of a directory below a root. -/
  first : ι
  toNat_inj : ∀ {a b : ι}, toNat a = toNat b → a = b
  toNat_root : toNat root = 0
  toNat_first : toNat first = 1
  exists_toNat_eq : ∀ (a : ι) {n : DirectoryId}, n ≤ toNat a → ∃ b, toNat b = n

namespace Handle

instance : Handle Nat where
  toNat id := id
  root := 0
  first := 1
  toNat_inj h := h
  toNat_root := rfl
  toNat_first := rfl
  exists_toNat_eq _ n _ := ⟨n, rfl⟩

instance : Handle UInt32 where
  toNat := UInt32.toNat
  root := 0
  first := 1
  toNat_inj h := UInt32.toNat_inj.mp h
  toNat_root := rfl
  toNat_first := rfl
  exists_toNat_eq id n h :=
    ⟨UInt32.ofNat n, UInt32.toNat_ofNat_of_lt' (Nat.lt_of_le_of_lt h id.toNat_lt)⟩

/-- The next number, where there is always another one. -/
def endless (id : Nat) : Option Nat := some (id + 1)

/-- The next 32-bit number, where the root's number follows the last one. -/
def wrapping (id : UInt32) : Option UInt32 := some (id + 1)

/-- The next 32-bit number, where none follows the last one. -/
def checked (id : UInt32) : Option UInt32 :=
  if id.toNat + 1 < UInt32.size then some (id + 1) else none

end Handle

/-! ## Tables of directories -/

namespace Arena

/-- A file with the number of the directory that holds it. -/
structure File (ι : Type) extends Entry where
  directory : ι
deriving DecidableEq

/-- A directory: its name, the number of the one above, the subdirectories by their names and
    the files by their keys. -/
structure Node (ι : Type) where
  name : String
  parent? : Option ι
  subdirectories : Std.ExtTreeMap String ι := ∅
  files : Std.ExtTreeMap String (File ι) := ∅
deriving DecidableEq

namespace Node

variable {ι : Type}

/-- The files in the order of their keys. -/
def fileList (node : Node ι) : List (File ι) := node.files.toList.map (·.2)

/-- The key that a name leads to: the name if it is one, or else the key of the first file that
    has it for a name. -/
def keyNamed? (node : Node ι) (name : String) : Option String :=
  if node.files.contains name then some name
  else (node.fileList.find? (·.name == name)).map (·.key)

/-- Puts a subdirectory under its name. -/
def link (name : String) (id : ι) (node : Node ι) : Node ι :=
  { node with subdirectories := node.subdirectories.insert name id }

/-- Takes a subdirectory from its name. -/
def unlink (name : String) (node : Node ι) : Node ι :=
  { node with subdirectories := node.subdirectories.erase name }

/-- Puts a file under its key. -/
def put (file : File ι) (node : Node ι) : Node ι :=
  { node with files := node.files.insert file.key file }

/-- Takes the file from a key. -/
def remove (key : String) (node : Node ι) : Node ι :=
  { node with files := node.files.erase key }

/-- Changes the source of the file under a key. -/
def updateSource (key : String) (f : Source → Source) (node : Node ι) : Node ι :=
  { node with
    files := node.files.modify key fun file => { file with source := f file.source } }

end Node

end Arena

/-- The directories by their numbers, the number for the next new one, and the settings. -/
structure Arena (ι : Type) [Handle ι] where
  directories : Std.ExtTreeMap ι (Arena.Node ι)
  nextId : ι
  policy : Policy := {}
deriving DecidableEq

/-- What a look at an arena answers, if it comes to an end. -/
abbrev Query (α : Type) := ExceptT Halt Option α

namespace Arena

variable {ι : Type} [Handle ι]

/-- An arena with a name for its root and nothing else in it. -/
def new (name : String) : Arena ι where
  directories := (∅ : Std.ExtTreeMap ι (Node ι)).insert Handle.root { name, parent? := none }
  nextId := Handle.first

/-- The directory of a number, which has to be one of the arena. -/
def node (arena : Arena ι) (id : ι) : Query (Node ι) :=
  match arena.directories[id]? with
  | some node => return node
  | none => throw .trap

/-- Puts a directory under a number. -/
def setNode (arena : Arena ι) (id : ι) (node : Node ι) : Arena ι :=
  { arena with directories := arena.directories.insert id node }

/-! ## The way up -/

/-- Counts the directories from one on up. -/
def countUp (arena : Arena ι) (count : Nat) : Option ι → Query Nat
  | none => return count
  | some id => do
    let node ← arena.node id
    arena |>.countUp (count + 1) node.parent?
partial_fixpoint

/-- How many directories are above one. -/
def depth (arena : Arena ι) (id : ι) : Query Nat := do
  let node ← arena.node id
  arena.countUp 0 node.parent?

/-- The names from the root down to a directory, the root's own left out, with more names
    behind them. -/
def namesTo (arena : Arena ι) (id : ι) (names : List String) : Query (List String) := do
  let node ← arena.node id
  match node.parent? with
  | none => return names
  | some parent => arena |>.namesTo parent (node.name :: names)
partial_fixpoint

/-- The path of a directory, from the root's own name on. -/
def directoryPath (arena : Arena ι) (id : ι) : Query String := do
  let root ← arena.node Handle.root
  let names ← arena.namesTo id []
  return "/".intercalate (root.name :: names)

/-- The path of a file, from the root's own name on. -/
def fullPath (arena : Arena ι) (file : File ι) : Query String := do
  let path ← arena.directoryPath file.directory
  return path ++ "/" ++ file.name

/-- The path of a file below the root. -/
def relativePath (arena : Arena ι) (file : File ι) : Query String := do
  let names ← arena.namesTo file.directory []
  return "/".intercalate (names ++ [file.name])

/-- The case-sensitive key of the place where a file is kept. -/
def fileKey (arena : Arena ι) (file : File ι) : Query UInt64 := do
  let path ← arena.directoryPath file.directory
  return Name.locationKey (path ++ "/" ++ file.key)

/-- The key that a file of a name is added under in a directory: its name, or its whole path if
    duplicates are kept. -/
def keyIn (arena : Arena ι) (id : ι) (name : String) : Query String := do
  if arena.policy.keepDuplicates then
    let path ← arena.directoryPath id
    return path ++ "/" ++ name
  else
    return name

/-! ## Paths -/

/-- One step among the directories there are. -/
def step? (arena : Arena ι) (id : ι) (segment : Segment) : Option ι := do
  let node ← arena.directories[id]?
  match segment with
  | .parent => return node.parent?.getD id
  | .name name => node.subdirectories[name]?

/-- Several steps among the directories there are, which end in one. -/
def walk? (arena : Arena ι) (start : ι) (segments : List Segment) : Option ι := do
  let last ← segments.foldlM arena.step? start
  let _ ← arena.directories[last]?
  return last

/-- The directory that a path leads to. -/
def findDirectory? (arena : Arena ι) (start : ι) (path : String) : Option ι :=
  arena.walk? start (Path.segments path)

/-- The directory and the key of the file that a path leads to. -/
def locate? (arena : Arena ι) (start : ι) (path : String) : Query (Option (ι × String)) :=
  match Path.file? path with
  | none => return none
  | some (segments, name) =>
    match arena.walk? start segments with
    | none => return none
    | some id => do
      let node ← arena.node id
      return (node.keyNamed? name).map fun key => (id, key)

/-- The file that a path leads to. -/
def findFile? (arena : Arena ι) (start : ι) (path : String) : Query (Option (File ι)) := do
  match ← arena.locate? start path with
  | none => return none
  | some (id, key) =>
    let node ← arena.node id
    return node.files[key]?

/-! ## Lists -/

/-- Puts items on a stack, one after another; its top is at the front. -/
def push {α : Type} (stack items : List α) : List α := items.reverse ++ stack

/-- The subdirectories of a directory in the order of their names. -/
def sortedSubdirectories (arena : Arena ι) (id : ι) : Query (List ι) := do
  let node ← arena.node id
  return (Sorted.sort (fun a b => Name.before a.1 b.1) node.subdirectories.toList).map (·.2)

/-- The files of a directory in the order of their names and keys. -/
def sortedFiles (arena : Arena ι) (id : ι) : Query (List (File ι)) := do
  let node ← arena.node id
  return Sorted.sort (fun a b => Entry.before a.toEntry b.toEntry) node.fileList

/-- Lists the directories on a stack, each before those below it. -/
def listFrom (arena : Arena ι) (listed : List ι) : List ι → Query (List ι)
  | [] => return listed
  | id :: pending => do
    let below ← arena.sortedSubdirectories id
    arena |>.listFrom (listed ++ [id]) (push pending below.reverse)
partial_fixpoint

/-- All directories: the root first, each before those below it, and siblings in the order of
    their names. -/
def allDirectories (arena : Arena ι) : Query (List ι) := arena.listFrom [] [Handle.root]

/-- All files: directory by directory, and in each in the order of their names. -/
def allFiles (arena : Arena ι) : Query (List (File ι)) := do
  let ids ← arena.allDirectories
  return (← ids.mapM arena.sortedFiles).flatten

end Arena

end HashArchive
