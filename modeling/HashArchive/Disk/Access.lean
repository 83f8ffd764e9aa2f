/-
  HashArchive.Disk.Access

  Reading and changing a disk by paths.  An operation that changes the disk gives the disk
  as it is afterwards also when it fails.
-/
import HashArchive.Disk.Lookup
import HashArchive.Error

namespace HashArchive

namespace Folder

variable [DiskLimits]

/-- Puts an item at a trail, if that ends in a name that a disk can hold. -/
def putNamed (top : Folder) (trail : Trail) (item : Item) : Folder × Except DiskFault Unit :=
  if validName (trail.getLast?.getD "") then (top.putAt item trail, .ok ())
  else (top, .error .badName)

/-! ## Files -/

/-- The bytes of the file to which a path leads. -/
def dataAt (top : Folder) (path : List String) : Except DiskFault Bytes :=
  match top.follow? path with
  | some (.file data) => .ok data
  | some _ => .error .isDirectory
  | none => .error .notFound

/-- Writes the file to which a path leads, through the links on it.  A file that is there
    gets other bytes, and one that is missing in its folder is added. -/
def writeFile (top : Folder) (path : List String) (data : Bytes) :
    Folder × Except DiskFault Unit :=
  match top.place? path with
  | none => (top, .error .notFound)
  | some trail =>
    match top.at? trail with
    | some (.file _) => (top.putAt (.file data) trail, .ok ())
    | some _ => (top, .error .isDirectory)
    | none => top.putNamed trail (.file data)

/-- Puts a finished file at a path, in place of a file or link that is there. -/
def replaceFile (top : Folder) (path : List String) (data : Bytes) :
    Folder × Except DiskFault Unit :=
  match top.entry? path with
  | none => (top, .error .notFound)
  | some trail =>
    match top.at? trail with
    | some (.folder _) => (top, .error .isDirectory)
    | _ => top.putNamed trail (.file data)

/-- Adds a link, in place of nothing else. -/
def makeLink (top : Folder) (path : List String) (target : String) :
    Folder × Except DiskFault Unit :=
  match top.entry? path with
  | none => (top, .error .notFound)
  | some trail =>
    match top.at? trail with
    | some _ => (top, .error .occupied)
    | none => top.putNamed trail (.link target)

/-! ## Folders -/

/-- Adds a folder to one that is there; a path that leads to a folder already is fine. -/
def makeFolder (top : Folder) (path : List String) : Folder × Except DiskFault Unit :=
  if (top.folder? path).isSome then
    (top, .ok ())
  else
    match top.entry? path with
    | none => (top, .error .notFound)
    | some trail =>
      match top.at? trail with
      | some _ => (top, .error .occupied)
      | none => top.putNamed trail (.folder .empty)

/-- Adds a folder and those above it that are missing.  The path is given from its last
    part on. -/
def makeFolders (top : Folder) : (backwards : List String) → Folder × Except DiskFault Unit
  | [] => (top, .ok ())
  | name :: backwards =>
    match top.makeFolder (name :: backwards).reverse with
    | (_, .error .notFound) =>
      match top.makeFolders backwards with
      | (top, .error fault) => (top, .error fault)
      | (top, .ok ()) => top.makeFolder (name :: backwards).reverse
    | made => made

/-- The folders to add for a path, from the last on.  Before a `.` at the end there has to
    be a folder, so the last one is not added. -/
def missingFolders (path : List String) : List String :=
  let backwards := path.reverse.dropWhile (· = "")
  let names := backwards.filter (!stays ·)
  if backwards.head? = some "." then names.drop 1 else names

/-- Makes sure that a path leads to a folder by adding those that are missing.  A path that
    is too long, or has an impossible character, is refused before anything is added. -/
def ensureFolder (top : Folder) (path : List String) : Folder × Except DiskFault Unit :=
  if path.any fun part => part.toList.contains '\x00' then (top, .error .badName)
  else if ¬Followable path then (top, .error .tooLong)
  else
    match top.makeFolders (missingFolders path) with
    | (top, .error fault) => (top, .error fault)
    | (top, .ok ()) =>
      if (top.folder? path).isSome then (top, .ok ()) else (top, .error .notFound)

end Folder

end HashArchive
