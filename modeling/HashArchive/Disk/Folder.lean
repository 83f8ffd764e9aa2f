/-
  HashArchive.Disk.Folder

  A disk as a value: folders that hold files, links and other folders by their names.
  A folder lists its items in the order of their names, so what it holds determines it.
-/
import HashArchive.Bytes

namespace HashArchive

/-- What a folder holds: its items one after another. -/
inductive Folder
  | empty
  | file (name : String) (data : Bytes) (rest : Folder)
  | link (name : String) (target : String) (rest : Folder)
  | folder (name : String) (inside rest : Folder)
deriving DecidableEq, Repr, Inhabited

/-- One item of a folder. -/
inductive Item
  | file (data : Bytes)
  | link (target : String)
  | folder (inside : Folder)
deriving DecidableEq, Repr

/-- What an item is, without what a folder holds. -/
inductive ItemKind
  | file (data : Bytes)
  | link (target : String)
  | folder
deriving DecidableEq, Repr

/-- The kind of an item. -/
def Item.kind : Item → ItemKind
  | .file data => .file data
  | .link target => .link target
  | .folder _ => .folder

/-- The names that lead from the top of the disk to an item, none of them a link. -/
abbrev Trail := List String

namespace Folder

/-- Puts an item before those of a folder. -/
def cons (name : String) (item : Item) (rest : Folder) : Folder :=
  match item with
  | .file data => file name data rest
  | .link target => link name target rest
  | .folder inside => folder name inside rest

/-- The names of the items of a folder. -/
def names : Folder → List String
  | empty => []
  | file name _ rest | link name _ rest | folder name _ rest => name :: rest.names

/-- The item of a name. -/
def get? (name : String) : Folder → Option Item
  | empty => none
  | file other data rest => if other = name then some (.file data) else rest.get? name
  | link other target rest => if other = name then some (.link target) else rest.get? name
  | folder other inside rest => if other = name then some (.folder inside) else rest.get? name

/-- Puts an item into a folder, in place of the one that has its name. -/
def put (name : String) (item : Item) : Folder → Folder
  | empty => cons name item empty
  | file other data rest =>
    if other < name then file other data (rest.put name item)
    else if other = name then cons name item rest
    else cons name item (file other data rest)
  | link other target rest =>
    if other < name then link other target (rest.put name item)
    else if other = name then cons name item rest
    else cons name item (link other target rest)
  | folder other inside rest =>
    if other < name then folder other inside (rest.put name item)
    else if other = name then cons name item rest
    else cons name item (folder other inside rest)

/-- The item at a trail. -/
def at? (top : Folder) : Trail → Option Item
  | [] => some (.folder top)
  | name :: names =>
    match top.get? name with
    | some (.folder inside) => inside.at? names
    | some item => if names = [] then some item else none
    | none => none

/-- Puts an item at a trail whose last name may be new; the rest of the trail has to lead
    to a folder. -/
def putAt (item : Item) (top : Folder) : Trail → Folder
  | [] => top
  | [name] => top.put name item
  | name :: names =>
    match top.get? name with
    | some (.folder inside) => top.put name (.folder (putAt item inside names))
    | _ => top

/-- All that is below a folder, as a walk comes upon it: in the order of the names, and each
    folder before what it holds.  Links are not followed. -/
def walked (above : Trail) : Folder → List (Trail × ItemKind)
  | empty => []
  | file name data rest => (above ++ [name], .file data) :: rest.walked above
  | link name target rest => (above ++ [name], .link target) :: rest.walked above
  | folder name inside rest =>
    (above ++ [name], .folder) :: (inside.walked (above ++ [name]) ++ rest.walked above)

end Folder

end HashArchive
