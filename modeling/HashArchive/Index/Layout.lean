/-
  HashArchive.Index.Layout

  The index of a directory tree in one encoding.  A first loop finds out how far the record
  of each directory will be from the record of the directory above; the records are built
  after it, with sibling records in the order of their ids and of those distances.
-/
import HashArchive.Archive.Basic
import HashArchive.Index.Record

namespace HashArchive

namespace Index

/-- The value that was added last for a key. -/
def latest? {α β : Type} [BEq α] (values : List (α × β)) (key : α) : Option β :=
  (values.reverse.find? (·.1 == key)).map (·.2)

/-- The order of file entries. -/
def entryBefore (a b : IndexEntry) : Bool := a.key < b.key

/-- What an index is built for: an encoding, the name of the archive, and the offset of
    the data of each file, by the key of its place. -/
structure Plan where
  encoding : Encoding
  rootName : String
  fileOffset? : UInt64 → Option Int64

/-- A directory whose record has no place yet: how deep it is, and where the record of the
    directory above begins. -/
structure Pending where
  tree : Tree Directory
  depth : Nat
  above : Int

/-- A subdirectory on the way into the record above: its number, its key, and its index if it
    could be built. -/
structure Sibling where
  id : DirectoryId
  key : UInt64
  index : Except ArchiveError Index

/-- The subdirectory with the distance of its record. -/
def Sibling.placed (distance? : DirectoryId → Option Int) (sibling : Sibling) :
    Except ArchiveError (Int × Sibling) :=
  match distance? sibling.id with
  | some distance => .ok (distance, sibling)
  | none => .error (.corrupt (.noPlace sibling.id))

namespace Plan

/-! ## The places of the records -/

/-- The directories of a forest in the order of their keys; those of one key stay in the
    order of their names. -/
def byKey (plan : Plan) (forest : Forest Directory) : List (Tree Directory) :=
  Sorted.sort (fun a b =>
    Name.key plan.encoding a.label.name < Name.key plan.encoding b.label.name) forest.trees

theorem byKey_perm (plan : Plan) (forest : Forest Directory) :
    (plan.byKey forest).Perm forest.trees :=
  Sorted.perm_sort _ forest.trees

/-- Below a directory there are fewer directories than from it on down. -/
theorem length_labels_byKey_lt (plan : Plan) (tree : Tree Directory) :
    ((plan.byKey tree.below).flatMap Tree.labels).length < tree.labels.length := by
  have hperm := (plan.byKey_perm tree.below).flatMap_right Tree.labels
  rw [hperm.length_eq, Forest.flatMap_labels_trees]
  exact Nat.lt_succ_self _

/-- How far the record of each directory is from the record of the directory above.  Records
    stand one behind another, the first at `place`; those below a directory come right after
    its own. -/
def distances (plan : Plan) (place : Int) : (pending : List Pending) → List (DirectoryId × Int)
  | [] => []
  | next :: pending =>
    let directory := next.tree.label
    let distance := place - next.above
    let entries := next.tree.below.trees.length + directory.files.length
    let children := (plan.byKey next.tree.below).map fun tree =>
      { tree, depth := next.depth + 1, above := next.above + distance : Pending }
    (directory.id, distance)
      :: plan.distances (place + Format.recordLength entries next.depth) (children ++ pending)
termination_by pending => (pending.flatMap (·.tree.labels)).length
decreasing_by
  have hfewer := plan.length_labels_byKey_lt next.tree
  rw [List.flatMap_append, List.flatMap_map, List.flatMap_cons, List.length_append,
    List.length_append]
  exact Nat.add_lt_add_right hfewer _

/-! ## The records -/

/-- The entry of a file in the directory of a path. -/
def fileEntry (plan : Plan) (path : String) (entry : Entry) : Except ArchiveError IndexEntry :=
  match plan.fileOffset? (Name.locationKey (path ++ "/" ++ entry.key)) with
  | some offset => .ok { key := Name.key plan.encoding entry.name, offset }
  | none => .error (.corrupt (.noData (path ++ "/" ++ entry.name)))

/-- The entries of a directory's files, in the order of their keys. -/
def fileEntries (plan : Plan) (location : Location) (directory : Directory) :
    Except ArchiveError (List IndexEntry) := do
  let path := "/".intercalate (plan.rootName :: location)
  let entries ← directory.listing.mapM (plan.fileEntry path)
  return Sorted.sort entryBefore entries

/-- The index of a directory with its subdirectories, whose records are at the given distances
    from its own. -/
def node (plan : Plan) (distance? : DirectoryId → Option Int) (location : Location)
    (ancestors : List UInt64) (directory : Directory) (below : List Sibling) :
    Except ArchiveError Index := do
  let placed ← (Sorted.sort (fun a b => a.key < b.key) below).mapM (Sibling.placed distance?)
  let placed := Sorted.sort (fun a b => a.1 < b.1) placed
  let files ← plan.fileEntries location directory
  -- A record below that cannot be built is noticed after the files.
  let indexes ← placed.mapM (·.2.index)
  return {
    label :=
      { id := Name.key plan.encoding directory.name
        depth := Int32.ofNat ancestors.length
        directories := placed.map fun item =>
          { key := item.2.key, offset := Int64.ofInt item.1 }
        files
        ancestors }
    below := Forest.ofTrees indexes }

/-- The directories of a forest with their indexes. -/
def siblings (plan : Plan) (distance? : DirectoryId → Option Int) (above : Location)
    (ancestors : List UInt64) : Forest Directory → List Sibling
  | .nil => []
  | .cons directory below rest =>
    let location := above ++ [directory.name]
    let key := Name.key plan.encoding directory.name
    let inside := plan.siblings distance? location (key :: ancestors) below
    { id := directory.id, key, index := plan.node distance? location ancestors directory inside }
      :: plan.siblings distance? above ancestors rest

/-- The index of a tree of directories. -/
def build (plan : Plan) (root : Tree Directory) : Except ArchiveError Index :=
  let distance? := latest? (plan.distances 0 [{ tree := root, depth := 0, above := 0 }])
  let key := Name.key plan.encoding root.label.name
  plan.node distance? [] [] root.label (plan.siblings distance? [] [key] root.below)

end Plan

end Index

end HashArchive
