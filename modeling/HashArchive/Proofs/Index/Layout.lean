/-
  HashArchive.Proofs.Index.Layout

  Where the records of an index stand in its bytes.  Records follow one another in
  preorder (`placed`), and the distance in a directory entry leads from the record that
  holds the entry to the record of the subdirectory (`index_laidOut`).
-/
import Mathlib
import HashArchive.Proofs.Archive.Places
import HashArchive.Proofs.Index.Nested

namespace HashArchive

/-! ## The length of a record -/

namespace IndexEntry

@[simp] theorem length_encode (entry : IndexEntry) : entry.encode.length = 16 := by
  simp [encode, Bytes.ofUInt64, Bytes.ofInt64]

end IndexEntry

namespace IndexRecord

/-- A record takes as many bytes as its numbers of entries and of ancestors say. -/
theorem length_encode (record : IndexRecord) : record.encode.length = record.length := by
  have hentries : ∀ entries : List IndexEntry,
      (entries.flatMap IndexEntry.encode).length = 16 * entries.length := by
    intro entries
    induction entries with
    | nil => rfl
    | cons entry entries ih =>
      rw [List.flatMap_cons, List.length_append, ih, IndexEntry.length_encode, List.length_cons]
      omega
  have hancestors : ∀ ancestors : List UInt64,
      (ancestors.flatMap Bytes.ofUInt64).length = 8 * ancestors.length := by
    intro ancestors
    induction ancestors with
    | nil => rfl
    | cons ancestor ancestors ih =>
      rw [List.flatMap_cons, List.length_append, ih, Bytes.ofUInt64, Bytes.length_ofNat,
        List.length_cons]
      omega
  simp only [encode, length, Format.recordLength, Format.recordTag, List.length_append,
    List.length_cons, List.length_nil, hentries, hancestors, Bytes.ofUInt64, Bytes.ofInt32,
    Bytes.ofUInt32, Bytes.length_ofNat]

/-- What a record says of its own directory. -/
def summary (record : IndexRecord) : UInt64 × List IndexEntry × Nat × Nat :=
  (record.id, record.files, record.directories.length, record.ancestors.length)

/-- Records one after another, each with the place where it begins. -/
def placed : (start : Nat) → List IndexRecord → List (Nat × IndexRecord)
  | _, [] => []
  | start, record :: records => (start, record) :: placed (start + record.length) records

theorem placed_append (start : Nat) (front back : List IndexRecord) :
    placed start (front ++ back)
      = placed start front ++ placed (start + (front.map length).sum) back := by
  induction front generalizing start with
  | nil => simp [placed]
  | cons record front ih => simp [placed, ih, Nat.add_assoc]

theorem length_flatMap_encode (records : List IndexRecord) :
    (records.flatMap encode).length = (records.map length).sum := by
  rw [List.length_flatMap]
  exact congrArg List.sum (List.map_congr_left fun record _ => length_encode record)

/-- A record is found at its place among the bytes. -/
theorem encode_prefix_of_mem_placed {start position : Nat} {record : IndexRecord}
    {records : List IndexRecord} (h : (position, record) ∈ placed start records) :
    start ≤ position ∧ record.encode <+: (records.flatMap encode).drop (position - start) := by
  induction records generalizing start with
  | nil => cases h
  | cons first records ih =>
    rcases List.mem_cons.mp h with h | h
    · obtain ⟨rfl, rfl⟩ := Prod.mk.inj h
      exact ⟨le_refl _, by simp⟩
    · obtain ⟨hstart, hpre⟩ := ih h
      refine ⟨by omega, ?_⟩
      have hdrop : position - start
          = first.encode.length + (position - (start + first.length)) := by
        rw [length_encode]
        omega
      rw [List.flatMap_cons, hdrop, ← List.drop_drop, List.drop_left]
      exact hpre

end IndexRecord

/-! ## Nodes and their places -/

namespace Index

/-- A record of an index with those below it, how deep it is, and where it begins. -/
structure Node where
  depth : Nat
  position : Nat
  tree : Index

namespace Node

/-- The record itself. -/
def record (node : Node) : IndexRecord := node.tree.label

/-- The place and the record. -/
def spot (node : Node) : Nat × IndexRecord := (node.position, node.record)

end Node

/-- The nodes of sibling records in preorder, the first of which begins at `start`. -/
def nodesFrom (depth start : Nat) : Forest IndexRecord → List Node
  | .nil => []
  | .cons record below rest =>
    ⟨depth, start, ⟨record, below⟩⟩
      :: (nodesFrom (depth + 1) (start + record.length) below
        ++ nodesFrom depth (start + record.length + lengthOf below) rest)

/-- The nodes of an index in preorder. -/
def nodes (index : Index) : List Node :=
  ⟨0, 0, index⟩ :: nodesFrom 1 index.label.length index.below

theorem lengthOf_eq_sum (forest : Forest IndexRecord) :
    lengthOf forest = (forest.labels.map IndexRecord.length).sum := by
  induction forest with
  | nil => rfl
  | cons record below rest ihBelow ihRest =>
    simp [lengthOf, Forest.labels, ihBelow, ihRest, Nat.add_assoc]

/-- The nodes of sibling records stand where records that follow one another do. -/
theorem map_spot_nodesFrom (depth start : Nat) (forest : Forest IndexRecord) :
    (nodesFrom depth start forest).map Node.spot = IndexRecord.placed start forest.labels := by
  induction forest generalizing depth start with
  | nil => rfl
  | cons record below rest ihBelow ihRest =>
    rw [Forest.labels, IndexRecord.placed, IndexRecord.placed_append, ← lengthOf_eq_sum,
      nodesFrom, List.map_cons, List.map_append, ihBelow, ihRest]
    rfl

theorem map_spot_nodes (index : Index) :
    index.nodes.map Node.spot = IndexRecord.placed 0 index.labels := by
  rw [nodes, List.map_cons, map_spot_nodesFrom, Tree.labels, IndexRecord.placed, Nat.zero_add]
  rfl

/-- A node of sibling records lies with all below it inside what they take. -/
theorem bounds_of_mem_nodesFrom {depth start : Nat} {forest : Forest IndexRecord} {node : Node}
    (h : node ∈ nodesFrom depth start forest) :
    start ≤ node.position ∧
      node.position + node.record.length + lengthOf node.tree.below ≤ start + lengthOf forest := by
  induction forest generalizing depth start with
  | nil => cases h
  | cons record below rest ihBelow ihRest =>
    rw [lengthOf]
    rcases List.mem_cons.mp h with rfl | h
    · simp only [Node.record]
      omega
    · rcases List.mem_append.mp h with h | h
      · have := ihBelow h
        omega
      · have := ihRest h
        omega

/-! ## Records that fit their places -/

/-- A record lists as many ancestors as it is deep, and has one entry for each record below
    it, which holds the distance to that record. -/
structure Fitting (depth : Nat) (record : IndexRecord) (below : Forest IndexRecord) : Prop where
  ancestors : record.ancestors.length = depth
  depth_eq : record.depth = Int32.ofNat depth
  directories : record.directories = directoryEntries record.length below

/-- All sibling records fit, and so do those below them. -/
def Fits (depth : Nat) : Forest IndexRecord → Prop
  | .nil => True
  | .cons record below rest => Fitting depth record below ∧ Fits (depth + 1) below ∧ Fits depth rest

/-- All records of an index fit. -/
def FitsRoot (index : Index) : Prop := Fitting 0 index.label index.below ∧ Fits 1 index.below

theorem fits_insert {depth : Nat} {tree : Index} {forest : Forest IndexRecord}
    (hlabel : Fitting depth tree.label tree.below) (hbelow : Fits (depth + 1) tree.below)
    (h : Fits depth forest) : Fits depth (forest.insert IndexRecord.before tree) := by
  induction forest with
  | nil => exact ⟨hlabel, hbelow, trivial⟩
  | cons record below rest _ ih =>
    obtain ⟨h₁, h₂, h₃⟩ := h
    rw [Forest.insert]
    split
    · exact ⟨h₁, h₂, ih h₃⟩
    · exact ⟨hlabel, hbelow, h₁, h₂, h₃⟩

/-- One entry for each record below. -/
theorem Fitting.length_directories {depth : Nat} {record : IndexRecord}
    {below : Forest IndexRecord} (h : Fitting depth record below) :
    record.directories.length = below.trees.length := by
  rw [h.directories, length_directoryEntries]

/-- In siblings that fit, each node fits and the nodes below it are among theirs. -/
theorem fitting_of_mem_nodesFrom {depth start : Nat} {forest : Forest IndexRecord}
    (hfits : Fits depth forest) {node : Node} (h : node ∈ nodesFrom depth start forest) :
    Fitting node.depth node.record node.tree.below ∧
      nodesFrom (node.depth + 1) (node.position + node.record.length) node.tree.below
        ⊆ nodesFrom depth start forest := by
  induction forest generalizing depth start with
  | nil => cases h
  | cons record below rest ihBelow ihRest =>
    obtain ⟨h₁, h₂, h₃⟩ := hfits
    rw [nodesFrom]
    rcases List.mem_cons.mp h with rfl | h
    · exact ⟨h₁, fun node hnode => List.mem_cons_of_mem _ (List.mem_append_left _ hnode)⟩
    · rcases List.mem_append.mp h with h | h
      · obtain ⟨hnode, hsub⟩ := ihBelow h₂ h
        exact ⟨hnode, fun node hnode =>
          List.mem_cons_of_mem _ (List.mem_append_left _ (hsub hnode))⟩
      · obtain ⟨hnode, hsub⟩ := ihRest h₃ h
        exact ⟨hnode, fun node hnode =>
          List.mem_cons_of_mem _ (List.mem_append_right _ (hsub hnode))⟩

/-- The entry for the record at a place among siblings holds how far that record is. -/
theorem exists_distance_of_directoryEntries (depth start : Nat) {offset i : Nat}
    {forest : Forest IndexRecord} {entry : IndexEntry} {child : Index}
    (hentry : (directoryEntries offset forest)[i]? = some entry)
    (hchild : forest.trees[i]? = some child) :
    ∃ distance, entry = { key := child.label.id, offset := Int64.ofNat (offset + distance) } ∧
      ⟨depth, start + distance, child⟩ ∈ nodesFrom depth start forest := by
  induction forest generalizing start offset i with
  | nil => cases hchild
  | cons record below rest _ ih =>
    rw [directoryEntries] at hentry
    rw [Forest.trees] at hchild
    cases i with
    | zero =>
      obtain rfl := Option.some.inj hentry
      obtain rfl := Option.some.inj hchild
      exact ⟨0, rfl, List.mem_cons_self⟩
    | succ i =>
      rw [List.getElem?_cons_succ] at hentry hchild
      obtain ⟨distance, rfl, hmem⟩ :=
        ih (start + record.length + lengthOf below) hentry hchild
      refine ⟨record.length + lengthOf below + distance, by simp [Nat.add_assoc], ?_⟩
      refine List.mem_cons_of_mem _ (List.mem_append_right _ ?_)
      simpa [Nat.add_assoc] using hmem

/-- The record of a node is as long as its entries and its depth say, and each directory entry
    leads to the record below it that has the entry's place among the siblings.  The distance
    is written as a signed number, which an index of a possible length never exceeds. -/
structure LinkedIn (index : Index) (node : Node) : Prop where
  length : node.record.encode.length = Format.recordLength
    (node.record.directories.length + node.record.files.length) node.depth
  count : node.record.directories.length = node.tree.below.trees.length
  child : ∀ {i : Nat} {entry : IndexEntry} {child : Index},
    node.record.directories[i]? = some entry → node.tree.below.trees[i]? = some child →
    ∃ distance, entry = { key := child.label.id, offset := Int64.ofNat distance } ∧
      ⟨node.depth + 1, node.position + distance, child⟩ ∈ index.nodes ∧
      (index.encode.length < 2 ^ 63 → entry.offset.toInt = distance)

theorem length_encode (index : Index) :
    index.encode.length = index.label.length + lengthOf index.below := by
  rw [encode, IndexRecord.length_flatMap_encode, lengthOf_eq_sum]
  rfl

theorem linkedIn_of_fitting {index : Index} {node : Node}
    (hfitting : Fitting node.depth node.record node.tree.below)
    (hbelow : nodesFrom (node.depth + 1) (node.position + node.record.length) node.tree.below
      ⊆ index.nodes)
    (htotal : node.record.length + lengthOf node.tree.below ≤ index.encode.length) :
    LinkedIn index node where
  length := by
    rw [IndexRecord.length_encode, IndexRecord.length, hfitting.ancestors]
  count := hfitting.length_directories
  child := by
    intro i entry child hentry hchild
    rw [hfitting.directories] at hentry
    obtain ⟨distance, rfl, hmem⟩ := exists_distance_of_directoryEntries (node.depth + 1)
      (node.position + node.record.length) hentry hchild
    refine ⟨node.record.length + distance, rfl, ?_, fun hfit => ?_⟩
    · rw [← Nat.add_assoc]
      exact hbelow hmem
    · have hbounds := (bounds_of_mem_nodesFrom hmem).2
      dsimp only at hbounds
      exact Int64.toInt_ofNat_of_lt (by omega)

/-- In an index whose records fit, all nodes are linked. -/
theorem linkedIn_of_fitsRoot {index : Index} (h : FitsRoot index) {node : Node}
    (hmem : node ∈ index.nodes) : LinkedIn index node := by
  have htotal := length_encode index
  rcases List.mem_cons.mp hmem with rfl | hmem
  · refine linkedIn_of_fitting h.1 ?_ (le_of_eq htotal.symm)
    intro node hnode
    apply List.mem_cons_of_mem _
    simpa [Node.record] using hnode
  · obtain ⟨hfitting, hsub⟩ := fitting_of_mem_nodesFrom h.2 hmem
    have hbounds := bounds_of_mem_nodesFrom hmem
    apply linkedIn_of_fitting hfitting (fun node hnode => List.mem_cons_of_mem _ (hsub hnode))
    omega

/-! ## The index of a tree of directories -/

namespace Plan

variable (plan : Plan)

/-- The record of a directory fits above the records of its subdirectories. -/
theorem fitting_record (location : Location) (ancestors : List UInt64) (directory : Directory)
    (below : Forest IndexRecord) :
    Fitting ancestors.length (plan.record location ancestors directory below) below where
  ancestors := rfl
  depth_eq := rfl
  directories := by
    simp only [record, IndexRecord.length, length_directoryEntries, length_entriesAt]

theorem fits_forest (above : Location) (ancestors : List UInt64) (forest : Forest Directory) :
    Fits ancestors.length (plan.forest above ancestors forest) := by
  induction forest generalizing above ancestors with
  | nil => trivial
  | cons directory below rest ihBelow ihRest =>
    refine fits_insert (plan.fitting_record _ _ _ _) ?_ (ihRest above ancestors)
    exact ihBelow (above ++ [directory.name]) (Name.key plan.encoding directory.name :: ancestors)

theorem fitsRoot_index (root : Tree Directory) : FitsRoot (plan.index root) :=
  ⟨plan.fitting_record [] [] root.label _,
    plan.fits_forest [] [Name.key plan.encoding root.label.name] root.below⟩

/-- What the record of a directory has to say: its key, the entries of its files, how many
    subdirectories there are, and how deep it is. -/
def summary (place : Place) : UInt64 × List IndexEntry × Nat × Nat :=
  (Name.key plan.encoding place.name, plan.entriesAt place.location place.tree.label,
    place.tree.below.trees.length, place.depth)

theorem summary_subtree {location : Location} {ancestors : List UInt64}
    (hdepth : ancestors.length = location.length) (tree : Tree Directory) :
    (plan.subtree location ancestors tree).label.summary = plan.summary ⟨location, tree⟩ := by
  rw [subtree, IndexRecord.summary]
  dsimp only
  rw [(plan.fitting_record location ancestors tree.label _).length_directories,
    length_trees_forest]
  show (_, _, _, ancestors.length) = _
  rw [hdepth]
  rfl

/-- Each directory of a forest has one record, so what the records say is what the directories
    ask for. -/
theorem map_labels_forest_perm {β : Type} {f : IndexRecord → β} {g : Place → β}
    (h : ∀ {location : Location} {ancestors : List UInt64}, ancestors.length = location.length →
      ∀ tree, f (plan.subtree location ancestors tree).label = g ⟨location, tree⟩)
    (above : Location) (ancestors : List UInt64) (hdepth : ancestors.length = above.length + 1)
    (forest : Forest Directory) :
    ((plan.forest above ancestors forest).labels.map f).Perm ((forest.places above).map g) := by
  induction forest generalizing above ancestors with
  | nil => exact List.Perm.refl _
  | cons directory below rest ihBelow ihRest =>
    set location := above ++ [directory.name] with hlocation
    set inner := Name.key plan.encoding directory.name :: ancestors with hinner
    have hlength : location.length = above.length + 1 := by
      rw [hlocation, List.length_append, List.length_singleton]
    have hrecord := h (hdepth.trans hlength.symm) ⟨directory, below⟩
    have hbelow := ihBelow location inner (by rw [hinner, List.length_cons, hlength, hdepth])
    apply ((Forest.labels_insert_perm _ _ _).map _).trans
    rw [List.map_append, Tree.labels, List.map_cons, Forest.places, List.map_cons, List.map_append,
      ← hrecord]
    exact (hbelow.append (ihRest above ancestors hdepth)).cons _

theorem map_labels_index_perm {β : Type} {f : IndexRecord → β} {g : Place → β}
    (h : ∀ {location : Location} {ancestors : List UInt64}, ancestors.length = location.length →
      ∀ tree, f (plan.subtree location ancestors tree).label = g ⟨location, tree⟩)
    (root : Tree Directory) :
    ((plan.index root).labels.map f).Perm ((root.placesAt []).map g) := by
  -- The root has no ancestors, so its record is that of a directory at depth zero.
  have hroot : f (plan.index root).label = g ⟨[], root⟩ := h rfl root
  rw [Tree.labels, Tree.placesAt, List.map_cons, List.map_cons, hroot]
  exact (plan.map_labels_forest_perm h [] _ rfl root.below).cons _

/-- What all records of an index satisfy is what all directories ask for. -/
theorem forall_mem_labels_iff {β : Type} {f : IndexRecord → β} {g : Place → β} (p : β → Prop)
    (h : ∀ {location : Location} {ancestors : List UInt64}, ancestors.length = location.length →
      ∀ tree, f (plan.subtree location ancestors tree).label = g ⟨location, tree⟩)
    (root : Tree Directory) :
    (∀ record ∈ (plan.index root).labels, p (f record)) ↔
      ∀ place ∈ root.placesAt [], p (g place) := by
  have hperm := plan.map_labels_index_perm h root
  rw [← List.forall_mem_map (f := f), ← List.forall_mem_map (f := g)]
  exact forall_congr' fun _ => imp_congr_left hperm.mem_iff

theorem summary_index_perm (root : Tree Directory) :
    ((plan.index root).labels.map IndexRecord.summary).Perm
      ((root.placesAt []).map plan.summary) :=
  plan.map_labels_index_perm plan.summary_subtree root

/-! ## The length of the index -/

theorem lengthOf_insert (tree : Index) (forest : Forest IndexRecord) :
    lengthOf (forest.insert IndexRecord.before tree)
      = tree.label.length + lengthOf tree.below + lengthOf forest := by
  have hperm := (Forest.labels_insert_perm IndexRecord.before tree forest).map IndexRecord.length
  rw [lengthOf_eq_sum, hperm.sum_nat, List.map_append, List.sum_append, Tree.labels, List.map_cons,
    List.sum_cons, lengthOf_eq_sum, lengthOf_eq_sum]

theorem length_record (location : Location) (ancestors : List UInt64) (directory : Directory)
    (below : Forest IndexRecord) :
    (plan.record location ancestors directory below).length
      = Format.recordLength (below.trees.length + directory.files.length) ancestors.length := by
  rw [record, IndexRecord.length, length_directoryEntries, length_entriesAt]

/-- The records of a forest take what the directories ask for. -/
theorem lengthOf_forest (above : Location) (ancestors : List UInt64) (forest : Forest Directory) :
    lengthOf (plan.forest above ancestors forest) = forest.extent ancestors.length := by
  induction forest generalizing above ancestors with
  | nil => rfl
  | cons directory below rest ihBelow ihRest =>
    rw [Plan.forest, lengthOf_insert, ihRest, length_record, length_trees_forest, ihBelow]
    rfl

theorem length_subtree (location : Location) (ancestors : List UInt64) (tree : Tree Directory) :
    (plan.subtree location ancestors tree).encode.length = tree.extent ancestors.length := by
  rw [length_encode, subtree, length_record, length_trees_forest, lengthOf_forest]
  rfl

end Plan

end Index

/-! ## The places of a tree -/

theorem Forest.sum_recordLength_places (forest : Forest Directory) (above : Location) :
    ((forest.places above).map Place.recordLength).sum = forest.extent (above.length + 1) := by
  induction forest generalizing above with
  | nil => rfl
  | cons directory below rest ihBelow ihRest =>
    have hlength : (above ++ [directory.name]).length = above.length + 1 := by simp
    rw [places, List.map_cons, List.map_append, List.sum_cons, List.sum_append, ihBelow, ihRest,
      Place.recordLength, Place.depth, hlength, extent]
    exact (Nat.add_assoc _ _ _).symm

/-- The records of an index take as much as the directories ask for. -/
theorem Index.Plan.length_encode_index (plan : Plan) (root : Tree Directory) :
    (plan.index root).encode.length
      = ((root.placesAt []).map Place.recordLength).sum := by
  rw [index, length_subtree, Tree.placesAt, List.map_cons, List.sum_cons,
    Forest.sum_recordLength_places]
  rfl

end HashArchive
