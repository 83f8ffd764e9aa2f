/-
  HashArchive.Archive.Edit

  Finding, adding and removing directories and files by paths.  Paths start at a
  directory given by its number; `..` leads to the directory above and stays at the
  root.  An operation that fails leaves the archive as it was.
-/
import HashArchive.Archive.Basic
import HashArchive.Path

namespace HashArchive.Archive

/-! ## Walks -/

/-- One step among the directories there are. -/
def step? (archive : Archive) (location : Location) : Segment → Option Location
  | .parent => some location.dropLast
  | .name name =>
    if (archive.descend? (location ++ [name])).isSome then some (location ++ [name]) else none

/-- Several steps among the directories there are. -/
def walk? (archive : Archive) (location : Location) (segments : List Segment) : Option Location :=
  segments.foldlM archive.step? location

/-- Adds a new directory, which takes the next number. -/
def addDirectory (archive : Archive) (location : Location) (name : String) : Archive :=
  { archive with
    root := archive.root.update (Tree.addBelow { id := archive.nextId, name }) location
    nextId := archive.nextId + 1 }

/-- One step, which adds the directory it leads to if that is missing. -/
def enter (archive : Archive) (location : Location) : Segment → Archive × Location
  | .parent => (archive, location.dropLast)
  | .name name =>
    if (archive.descend? (location ++ [name])).isSome then
      (archive, location ++ [name])
    else
      (archive.addDirectory location name, location ++ [name])

/-- Several steps, which add the directories that are missing. -/
def enterAll (archive : Archive) (location : Location) (segments : List Segment) :
    Archive × Location :=
  segments.foldl (fun (archive, location) segment => archive.enter location segment)
    (archive, location)

/-! ## Directories -/

/-- The directory that a path leads to. -/
def findDirectory? (archive : Archive) (start : DirectoryId) (path : String) : Option Place := do
  let place ← archive.place? start
  let location ← archive.walk? place.location (Path.segments path)
  let tree ← archive.descend? location
  return ⟨location, tree⟩

/-- The directory that a path leads to, where those that are missing are added.  A start
    that does not exist is refused, unless there is no step to take from it. -/
def ensureDirectory (archive : Archive) (start : DirectoryId) (path : String) :
    Except ArchiveError (Archive × DirectoryId) :=
  match archive.place? start, Path.segments path with
  -- With no step to take, the start is not looked at.
  | none, [] => .ok (archive, start)
  | none, _ => .error (.unknownDirectory start)
  | some place, segments =>
    let (archive, location) := archive.enterAll place.location segments
    match archive.descend? location with
    | some tree => .ok (archive, tree.label.id)
    | none => .error (.unknownDirectory start)

/-- Removes the directory that a path leads to, with all below it, and tells whether there
    was one; the root stays. -/
def removeDirectory (archive : Archive) (start : DirectoryId) (path : String) : Archive × Bool :=
  match archive.findDirectory? start path with
  | none => (archive, false)
  | some place =>
    match place.location.getLast? with
    -- Only the root has an empty location.
    | none => (archive, false)
    | some name =>
      ({ archive with
         root := archive.root.update (Tree.removeBelow name) place.location.dropLast }, true)

/-! ## Files -/

/-- Adds a file to a directory, in place of the one that has its key. -/
def putFile (archive : Archive) (location : Location) (entry : Entry) : Archive :=
  { archive with root := archive.root.update (Tree.updateRoot (·.put entry)) location }

/-- Adds a file at the end of a walk from a directory, keyed as the settings say. -/
def putFileAt (archive : Archive) (location : Location) (segments : List Segment) (name : String)
    (source : Source) : Archive × FileAddress :=
  let (archive, location) := archive.enterAll location segments
  let key :=
    if archive.policy.keepDuplicates then archive.directoryPath location ++ "/" ++ name else name
  (archive.putFile location { name, key, source }, ⟨location, key⟩)

/-- Adds the file that a path names, in place of the one that has its key. -/
def addFile (archive : Archive) (start : DirectoryId) (path : String) (source : Source) :
    Except ArchiveError (Archive × FileAddress) :=
  match Path.file? path with
  | none => .error (.noFileName path)
  | some (segments, name) =>
    match archive.place? start with
    | none => .error (.unknownDirectory start)
    | some place => .ok (archive.putFileAt place.location segments name source)

/-- Where the file that a path leads to is kept. -/
def locate? (archive : Archive) (start : DirectoryId) (path : String) : Option FileAddress := do
  let (segments, name) ← Path.file? path
  let place ← archive.place? start
  let location ← archive.walk? place.location segments
  let tree ← archive.descend? location
  let entry ← tree.label.fileNamed? name
  return ⟨location, entry.key⟩

/-- The file that a path leads to. -/
def findFile? (archive : Archive) (start : DirectoryId) (path : String) : Option StoredFile := do
  archive.file? (← archive.locate? start path)

/-- Removes the file that a path leads to, and tells whether there was one. -/
def removeFile (archive : Archive) (start : DirectoryId) (path : String) : Archive × Bool :=
  match archive.locate? start path with
  | none => (archive, false)
  | some address =>
    ({ archive with
       root := archive.root.update (Tree.updateRoot (·.remove address.key)) address.location },
      true)

/-- Adds a second file with the source of the first; both paths start at the root. -/
def copyFile (archive : Archive) (source target : String) :
    Except ArchiveError (Archive × FileAddress) :=
  match archive.findFile? rootId source with
  | none => .error (.fileNotFound source)
  | some file => archive.addFile rootId target file.entry.source

end HashArchive.Archive
