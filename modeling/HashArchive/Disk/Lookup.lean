/-
  HashArchive.Disk.Lookup

  Where the paths of a disk lead.  Slashes separate the parts of a path, `..` leads to the
  folder above, and links are followed.  `.` and the empty part, which a slash at the end
  leaves, stay where they are; what comes before them has to be a folder.  How long a path or a
  name may be differs from system to system, so these limits are a parameter (`DiskLimits`).
-/
import HashArchive.Disk.Folder

namespace HashArchive

/-- What the system allows on a disk. -/
class DiskLimits where
  /-- The longest path that is followed, in bytes. -/
  path : Nat
  /-- The longest name that a new item can have, in bytes. -/
  name : Nat
  /-- How many links are followed on one path. -/
  links : Nat

/-- The limits that are usual. -/
abbrev DiskLimits.usual : DiskLimits := { path := 4095, name := 255, links := 40 }

namespace Folder

variable [DiskLimits]

/-! ## Paths -/

/-- The parts of a path. -/
def parts (path : String) : List String :=
  (path.toList.splitOnP (· == '/')).map String.ofList

/-- Whether a part stays in the folder before it. -/
def stays (part : String) : Bool := part = "" || part = "."

/-- Whether a part is the name of an item. -/
def isName (part : String) : Bool := !stays part && part ≠ ".."

/-- The path of what a second path names below the folder of the first; a slash at the end
    of the first is separator enough. -/
def under (folder below : List String) : List String :=
  (if folder.getLast? = some "" then folder.dropLast else folder) ++ below

/-- The path of the folder in which a path has its last step. -/
def folderOf (path : List String) : List String :=
  ((path.reverse.dropWhile stays).drop 1).reverse

/-- The length of a path in bytes, with a separator behind each part. -/
def pathLength : List String → Nat
  | [] => 0
  | part :: path => part.utf8ByteSize + 1 + pathLength path

/-- Whether a path is short enough to be followed. -/
def Followable (path : List String) : Prop :=
  -- There is no separator behind the last part.
  pathLength path ≤ DiskLimits.path + 1

instance (path : List String) : Decidable (Followable path) :=
  inferInstanceAs (Decidable (_ ≤ _))

/-- Whether a new item can have this name. -/
def validName (name : String) : Bool :=
  isName name && name.utf8ByteSize ≤ DiskLimits.name
    && name.toList.all fun c => c ≠ '/' && c ≠ '\x00'

/-! ## Following -/

/-- The folders from the innermost out to the one right below the top, each with its
    name. -/
abbrev Descent := List (String × Folder)

namespace Descent

/-- The folder at the end of a descent. -/
def inside (top : Folder) : Descent → Folder
  | [] => top
  | (_, innermost) :: _ => innermost

/-- The names on a descent, from the top down. -/
def trail (here : Descent) : Trail := (here.map (·.1)).reverse

end Descent

/-- The trail to which a path leads from the end of a descent.  Its last name may be
    missing there, but all before it has to exist. -/
def walk? (top : Folder) (links : Nat) (here : Descent) (path : List String) : Option Trail :=
  match path with
  | [] => some here.trail
  | part :: path =>
    if stays part then
      walk? top links here path
    else if part = ".." then
      -- The top is the folder above itself.
      walk? top links here.tail path
    else
      match (here.inside top).get? part with
      | some (.folder inside) => walk? top links ((part, inside) :: here) path
      | some (.link target) =>
        match links with
        | 0 => none
        | links + 1 =>
          -- A target goes on from the folder of its link, unless it starts with a slash.
          let start := if target.front? = some '/' then [] else here
          walk? top links start (parts target ++ path)
      -- Nothing can be below a file or a missing item, not even a slash.
      | _ => if path = [] then some (here.trail ++ [part]) else none
termination_by (links, path.length)

/-- The trail to which a path leads, where something is or could be added. -/
def place? (top : Folder) (path : List String) : Option Trail :=
  if Followable path then top.walk? DiskLimits.links [] path else none

/-- The trail of the item to which a path leads. -/
def find? (top : Folder) (path : List String) : Option Trail := do
  let trail ← top.place? path
  let _ ← top.at? trail
  return trail

/-- The item to which a path leads. -/
def follow? (top : Folder) (path : List String) : Option Item := do
  top.at? (← top.place? path)

/-- The folder to which a path leads. -/
def folder? (top : Folder) (path : List String) : Option Folder :=
  match top.follow? path with
  | some (.folder inside) => some inside
  | _ => none

/-- The trail of what the last part of a path names in its folder, be it a link or still
    missing. -/
def entry? (top : Folder) (path : List String) : Option Trail := do
  let name ← path.getLast?
  let above ← top.find? path.dropLast
  match top.at? above with
  | some (.folder _) =>
    if isName name ∧ Followable path then some (above ++ [name]) else none
  | _ => none

/-- The target of the link that the last part of a path names. -/
def link? (top : Folder) (path : List String) : Option String := do
  match top.at? (← top.entry? path) with
  | some (.link target) => some target
  | _ => none

end Folder

end HashArchive
