/-
  HashArchive.Proofs.Index.Nested

  The index of a tree of directories by recursion on the tree.  Each record is made from the
  records below it, whose lengths add up to the distances in its entries, so there is no
  loop over the directories and no second sort.
-/
import Mathlib
import HashArchive.Index.Layout
import HashArchive.Proofs.Forest.Insert

namespace HashArchive

/-! ## The bytes that directories take -/

/-- The length of the index record of a directory at a depth. -/
def Tree.recordLength (tree : Tree Directory) (depth : Nat) : Nat :=
  Format.recordLength (tree.below.trees.length + tree.label.files.length) depth

/-- The length of the index record of a directory. -/
def Place.recordLength (place : Place) : Nat := place.tree.recordLength place.depth

/-- The length of the records of sibling directories at a depth and of all below them. -/
def Forest.extent : Forest Directory → (depth : Nat) → Nat
  | .nil, _ => 0
  | .cons directory below rest, depth =>
    Tree.recordLength ⟨directory, below⟩ depth + below.extent (depth + 1) + rest.extent depth

/-- The length of the records from a directory at a depth on down. -/
def Tree.extent (tree : Tree Directory) (depth : Nat) : Nat :=
  tree.recordLength depth + tree.below.extent (depth + 1)

theorem Forest.sum_extent_trees (forest : Forest Directory) (depth : Nat) :
    (forest.trees.map (·.extent depth)).sum = forest.extent depth := by
  induction forest with
  | nil => rfl
  | cons directory below rest _ ih =>
    rw [trees, List.map_cons, List.sum_cons, ih]
    rfl

namespace IndexRecord

/-- The length of a record as bytes, without the records below it. -/
def length (record : IndexRecord) : Nat :=
  Format.recordLength (record.directories.length + record.files.length) record.ancestors.length

/-- Sibling records stand in the order of their ids. -/
def before (a b : IndexRecord) : Bool := a.id < b.id

end IndexRecord

namespace Index

/-- The length of the records of a forest as bytes. -/
def lengthOf : Forest IndexRecord → Nat
  | .nil => 0
  | .cons record below rest => record.length + lengthOf below + lengthOf rest

/-- The entries that lead to sibling records, the first of which stands at `offset`. -/
def directoryEntries (offset : Nat) : Forest IndexRecord → List IndexEntry
  | .nil => []
  | .cons record below rest =>
    { key := record.id, offset := Int64.ofNat offset }
      :: directoryEntries (offset + record.length + lengthOf below) rest

theorem length_directoryEntries (offset : Nat) (forest : Forest IndexRecord) :
    (directoryEntries offset forest).length = forest.trees.length := by
  induction forest generalizing offset with
  | nil => rfl
  | cons record below rest _ ih => simp [directoryEntries, Forest.trees, ih]

theorem map_key_directoryEntries (offset : Nat) (forest : Forest IndexRecord) :
    (directoryEntries offset forest).map (·.key) = forest.trees.map (·.label.id) := by
  induction forest generalizing offset with
  | nil => rfl
  | cons record below rest _ ih => simp [directoryEntries, Forest.trees, ih]

namespace Plan

variable (plan : Plan)

/-! ## Files -/

/-- The key by which the offset of a file is looked up. -/
def keyAt (location : Location) (entry : Entry) : UInt64 :=
  Name.locationKey ("/".intercalate (plan.rootName :: location) ++ "/" ++ entry.key)

/-- The offset in the entry of a file. -/
def offsetAt (location : Location) (entry : Entry) : Int64 :=
  (plan.fileOffset? (plan.keyAt location entry)).getD 0

/-- The entry of a file. -/
def entryAt (location : Location) (entry : Entry) : IndexEntry :=
  { key := Name.key plan.encoding entry.name, offset := plan.offsetAt location entry }

/-- The entries of a directory's files, where all of them have offsets. -/
def entriesAt (location : Location) (directory : Directory) : List IndexEntry :=
  Sorted.sort entryBefore (directory.listing.map (plan.entryAt location))

/-- The files of a directory in the order of its index record. -/
def fileOrder (location : Location) (directory : Directory) : List Entry :=
  Sorted.sort (fun a b => entryBefore (plan.entryAt location a) (plan.entryAt location b))
    directory.listing

theorem entriesAt_eq (location : Location) (directory : Directory) :
    plan.entriesAt location directory
      = (plan.fileOrder location directory).map (plan.entryAt location) :=
  Sorted.sort_map (plan.entryAt location) entryBefore directory.listing

theorem fileOrder_perm (location : Location) (directory : Directory) :
    (plan.fileOrder location directory).Perm directory.files :=
  (Sorted.perm_sort _ _).trans (Sorted.perm_sort _ _)

theorem length_entriesAt (location : Location) (directory : Directory) :
    (plan.entriesAt location directory).length = directory.files.length := by
  rw [entriesAt_eq, List.length_map]
  exact (plan.fileOrder_perm location directory).length_eq

/-! ## Records -/

/-- The record of a directory, given the records below it. -/
def record (location : Location) (ancestors : List UInt64) (directory : Directory)
    (below : Forest IndexRecord) : IndexRecord :=
  { id := Name.key plan.encoding directory.name
    depth := Int32.ofNat ancestors.length
    directories :=
      directoryEntries
        (Format.recordLength (below.trees.length + directory.files.length) ancestors.length) below
    files := plan.entriesAt location directory
    ancestors }

/-- The records of a forest of directories. -/
def forest (plan : Plan) (above : Location) (ancestors : List UInt64) :
    Forest Directory → Forest IndexRecord
  | .nil => .nil
  | .cons directory below rest =>
    let location := above ++ [directory.name]
    let id := Name.key plan.encoding directory.name
    let records := plan.forest location (id :: ancestors) below
    (plan.forest above ancestors rest).insert IndexRecord.before
      ⟨plan.record location ancestors directory records, records⟩

/-- The index of the directories from one on down. -/
def subtree (location : Location) (ancestors : List UInt64) (tree : Tree Directory) : Index :=
  let records :=
    plan.forest location (Name.key plan.encoding tree.label.name :: ancestors) tree.below
  ⟨plan.record location ancestors tree.label records, records⟩

/-- The index of a tree of directories. -/
def index (root : Tree Directory) : Index := plan.subtree [] [] root

/-! ## The order of siblings -/

/-- Sibling records stand as the directories do in the order of their keys. -/
theorem trees_forest_eq (above : Location) (ancestors : List UInt64) (forest : Forest Directory) :
    (plan.forest above ancestors forest).trees
      = (plan.byKey forest).map fun tree =>
          plan.subtree (above ++ [tree.label.name]) ancestors tree := by
  -- Records are put in their order one by one, which sorts the directories by their keys.
  refine Eq.trans ?_ (Sorted.sort_map (fun tree : Tree Directory =>
    plan.subtree (above ++ [tree.label.name]) ancestors tree)
      (fun a b => IndexRecord.before a.label b.label) forest.trees)
  induction forest with
  | nil => rfl
  | cons directory below rest _ ih =>
    rw [Plan.forest, Forest.trees_insert, ih]
    rfl

/-- The entries of a record lead to the subdirectories in the order of their keys. -/
theorem map_key_directories_subtree (location : Location) (ancestors : List UInt64)
    (tree : Tree Directory) :
    (plan.subtree location ancestors tree).label.directories.map (·.key)
      = (plan.byKey tree.below).map fun child => Name.key plan.encoding child.label.name := by
  show (directoryEntries _ (plan.forest location _ tree.below)).map (·.key) = _
  rw [map_key_directoryEntries, trees_forest_eq, List.map_map]
  rfl

theorem length_trees_forest (above : Location) (ancestors : List UInt64)
    (forest : Forest Directory) :
    (plan.forest above ancestors forest).trees.length = forest.trees.length := by
  rw [trees_forest_eq, List.length_map]
  exact (plan.byKey_perm forest).length_eq

end Plan

end Index

end HashArchive
