/-
  HashArchive.Proofs.Index.Build

  The index as it is built.  Distances are looked up by the numbers of directories, and
  siblings are sorted by them once more; where numbers are used once and all files have
  offsets, what comes out is the index by recursion (`build_eq`).  Nothing but a file without
  an offset makes it fail (`hasOffsets_of_build`).
-/
import Mathlib
import HashArchive.Outcome
import HashArchive.Proofs.Index.Distances
import HashArchive.Proofs.Index.Layout

namespace HashArchive.Index

/-! ## Values by their keys -/

section Latest

variable {α β : Type} [BEq α] [LawfulBEq α] {values : List (α × β)} {key : α} {value : β}

theorem isSome_latest?_iff : (latest? values key).isSome ↔ key ∈ values.map (·.1) := by
  rw [latest?, Option.isSome_map, List.find?_isSome]
  simp

/-- Where no key is used twice, the value of a key is the one that stands with it. -/
theorem latest?_of_mem (hnodup : (values.map (·.1)).Nodup) (hmem : (key, value) ∈ values) :
    latest? values key = some value := by
  have hsome : (latest? values key).isSome :=
    isSome_latest?_iff.mpr (List.mem_map_of_mem (f := (·.1)) hmem)
  obtain ⟨found, hfound⟩ := Option.isSome_iff_exists.mp hsome
  obtain ⟨pair, hpair, rfl⟩ := Option.map_eq_some_iff.mp hfound
  have hkey : pair.1 = key := by simpa using List.find?_some hpair
  have hpairMem : pair ∈ values := List.mem_reverse.mp (List.mem_of_find?_eq_some hpair)
  rw [hfound, List.inj_on_of_nodup_map hnodup hpairMem hmem hkey]

end Latest

namespace Plan

/-! ## Rows -/

theorem map_snd_inRow (depth : Nat) (distance : Int) (trees : List (Tree Directory)) :
    (inRow depth distance trees).map (·.2) = trees := by
  induction trees generalizing distance with
  | nil => rfl
  | cons tree trees ih => rw [inRow, List.map_cons, ih]

theorem le_of_mem_inRow {depth : Nat} {distance : Int} {trees : List (Tree Directory)}
    {item : Int × Tree Directory} (h : item ∈ inRow depth distance trees) :
    distance ≤ item.1 := by
  induction trees generalizing distance with
  | nil => cases h
  | cons tree trees ih =>
    rcases List.mem_cons.mp h with rfl | h
    · exact le_refl _
    · have := ih h
      omega

/-- Distances in a row go up. -/
theorem pairwise_inRow (depth : Nat) (distance : Int) (trees : List (Tree Directory)) :
    (inRow depth distance trees).Pairwise fun a b => a.1 ≤ b.1 := by
  induction trees generalizing distance with
  | nil => exact List.Pairwise.nil
  | cons tree trees ih =>
    refine List.pairwise_cons.mpr ⟨?_, ih _⟩
    intro item hmem
    have := le_of_mem_inRow hmem
    show distance ≤ item.1
    omega

variable (plan : Plan)

/-- The entry that leads to a record in a row. -/
def entryBelow (item : Int × Tree Directory) : IndexEntry :=
  { key := Name.key plan.encoding item.2.label.name, offset := Int64.ofInt item.1 }

/-- The entries that lead to records in a row hold the distances of the row. -/
theorem directoryEntries_ofTrees (above : Location) (ancestors : List UInt64) (distance : Nat)
    (trees : List (Tree Directory)) :
    directoryEntries distance (Forest.ofTrees (trees.map fun tree =>
        plan.subtree (above ++ [tree.label.name]) ancestors tree))
      = (inRow ancestors.length distance trees).map plan.entryBelow := by
  induction trees generalizing distance with
  | nil => rfl
  | cons tree trees ih =>
    have hlength := plan.length_subtree (above ++ [tree.label.name]) ancestors tree
    rw [length_encode] at hlength
    rw [List.map_cons, Forest.ofTrees, directoryEntries, inRow, List.map_cons, Nat.add_assoc,
      hlength, ih, entryBelow, Int64.ofInt_eq_ofNat]
    rfl

theorem directories_subtree {location : Location} {ancestors : List UInt64}
    (hdepth : ancestors.length = location.length) (tree : Tree Directory) :
    (plan.subtree location ancestors tree).label.directories
      = (plan.rowBelow ⟨location, tree⟩).map plan.entryBelow := by
  set inner := Name.key plan.encoding tree.label.name :: ancestors with hinner
  have hinnerLength : inner.length = location.length + 1 := by
    rw [hinner, List.length_cons, hdepth]
  have htrees := plan.trees_forest_eq location inner tree.below
  have hforest : plan.forest location inner tree.below
      = Forest.ofTrees ((plan.byKey tree.below).map fun child =>
          plan.subtree (location ++ [child.label.name]) inner child) := by
    rw [← htrees, Forest.ofTrees_trees]
  rw [subtree, ← hinner, record]
  dsimp only
  rw [length_trees_forest, hforest, directoryEntries_ofTrees, hinnerLength, hdepth]
  rfl

/-! ## Files -/

/-- All files of a directory have offsets. -/
def HasOffsets (place : Place) : Prop :=
  ∀ entry ∈ place.tree.label.files, (plan.fileOffset? (plan.keyAt place.location entry)).isSome

theorem fileEntry_eq {location : Location} {entry : Entry}
    (h : (plan.fileOffset? (plan.keyAt location entry)).isSome) :
    plan.fileEntry ("/".intercalate (plan.rootName :: location)) entry
      = .ok (plan.entryAt location entry) := by
  obtain ⟨offset, hoffset⟩ := Option.isSome_iff_exists.mp h
  rw [entryAt, offsetAt, hoffset]
  rw [keyAt] at hoffset
  rw [fileEntry, hoffset]
  rfl

theorem fileEntries_eq {place : Place} (h : plan.HasOffsets place) :
    plan.fileEntries place.location place.tree.label
      = .ok (plan.entriesAt place.location place.tree.label) := by
  rw [fileEntries, Outcome.mapM_eq_ok (g := plan.entryAt place.location)]
  · rfl
  · intro entry hmem
    exact plan.fileEntry_eq (h entry ((Sorted.perm_sort _ _).mem_iff.mp hmem))

variable {plan} in
theorem hasOffsets_of_fileEntries {place : Place} {entries : List IndexEntry}
    (h : plan.fileEntries place.location place.tree.label = .ok entries) :
    plan.HasOffsets place := by
  intro entry hmem
  obtain ⟨found, hfound, -⟩ := Outcome.bind_eq_ok_iff.mp h
  obtain ⟨value, -, hvalue⟩ :=
    Outcome.exists_of_mapM_eq_ok hfound ((Sorted.perm_sort _ _).mem_iff.mpr hmem)
  rw [keyAt]
  rw [fileEntry] at hvalue
  split at hvalue
  · next offset hoffset =>
    rw [hoffset]
    rfl
  · cases hvalue

/-! ## Directories -/

/-- What is known of a directory when its record is built: the distances of the records below
    are found by the numbers of their directories, and its files have offsets. -/
structure Ready (distance? : DirectoryId → Option Int) (place : Place) : Prop where
  below : ∀ item ∈ plan.rowBelow place, distance? item.2.label.id = some item.1
  files : plan.HasOffsets place

/-- A subdirectory with the index by recursion. -/
def siblingAt (above : Location) (ancestors : List UInt64) (tree : Tree Directory) : Sibling :=
  { id := tree.label.id
    key := Name.key plan.encoding tree.label.name
    index := .ok (plan.subtree (above ++ [tree.label.name]) ancestors tree) }

/-- The record of a directory is built from those below it. -/
theorem node_eq {distance? : DirectoryId → Option Int} {location : Location}
    {ancestors : List UInt64} (hdepth : ancestors.length = location.length) {tree : Tree Directory}
    (hready : plan.Ready distance? ⟨location, tree⟩) :
    plan.node distance? location ancestors tree.label (tree.below.trees.map
        (plan.siblingAt location (Name.key plan.encoding tree.label.name :: ancestors)))
      = .ok (plan.subtree location ancestors tree) := by
  set inner := Name.key plan.encoding tree.label.name :: ancestors with hinner
  set row := plan.rowBelow ⟨location, tree⟩ with hrow
  set placed : List (Int × Sibling) :=
    row.map fun item => (item.1, plan.siblingAt location inner item.2) with hplaced
  have hbyKey : row.map (·.2) = plan.byKey tree.below := map_snd_inRow _ _ _
  have hsorted : Sorted.sort (fun a b => a.key < b.key)
      (tree.below.trees.map (plan.siblingAt location inner))
        = (plan.byKey tree.below).map (plan.siblingAt location inner) :=
    Sorted.sort_map (plan.siblingAt location inner) _ _
  have hlookup : ((plan.byKey tree.below).map (plan.siblingAt location inner)).mapM
      (Sibling.placed distance?) = .ok placed := by
    rw [← hbyKey, List.map_map, List.mapM_map]
    refine Outcome.mapM_eq_ok fun item hmem => ?_
    have hdistance : distance? (plan.siblingAt location inner item.2).id = some item.1 :=
      hready.below item hmem
    show Sibling.placed distance? (plan.siblingAt location inner item.2) = _
    rw [Sibling.placed, hdistance]
  -- The distances of a row go up, so the second sort moves nothing.
  have hstay : Sorted.sort (fun a b => a.1 < b.1) placed = placed := by
    apply Sorted.sort_eq_self
    rw [hplaced, List.pairwise_map]
    refine (pairwise_inRow _ _ _).imp fun {a b} hle => ?_
    exact decide_eq_false (not_lt.mpr hle)
  have hindexes : placed.mapM (·.2.index) = .ok (plan.forest location inner tree.below).trees := by
    rw [trees_forest_eq, ← hbyKey, List.map_map, hplaced, List.mapM_map]
    exact Outcome.mapM_eq_ok fun item _ => rfl
  have hentries : (placed.map fun item => { key := item.2.key, offset := Int64.ofInt item.1 })
      = (plan.subtree location ancestors tree).label.directories := by
    rw [plan.directories_subtree hdepth, hplaced, List.map_map]
    rfl
  rw [node, hsorted, hlookup, Outcome.ok_bind, hstay]
  dsimp only
  rw [plan.fileEntries_eq hready.files, Outcome.ok_bind, hindexes, Outcome.ok_bind, hentries,
    Forest.ofTrees_trees]
  rfl

/-- Each directory of a forest is a sibling with its index by recursion. -/
theorem siblings_eq {distance? : DirectoryId → Option Int} {above : Location}
    {ancestors : List UInt64} (hdepth : ancestors.length = above.length + 1)
    {forest : Forest Directory}
    (hready : ∀ place ∈ forest.places above, plan.Ready distance? place) :
    plan.siblings distance? above ancestors forest
      = forest.trees.map (plan.siblingAt above ancestors) := by
  induction forest generalizing above ancestors with
  | nil => rfl
  | cons directory below rest ihBelow ihRest =>
    rw [Forest.places] at hready
    obtain ⟨hown, hothers⟩ := List.forall_mem_cons.mp hready
    obtain ⟨hinside, hbeside⟩ := List.forall_mem_append.mp hothers
    set location := above ++ [directory.name] with hlocation
    set inner := Name.key plan.encoding directory.name :: ancestors with hinner
    have hlength : ancestors.length = location.length := by
      rw [hlocation, List.length_append, List.length_singleton, hdepth]
    have hbelow : plan.siblings distance? location inner below
        = below.trees.map (plan.siblingAt location inner) :=
      ihBelow (by rw [hinner, List.length_cons, hlength]) hinside
    rw [siblings, ← hlocation, ← hinner, hbelow, plan.node_eq hlength hown, ihRest hdepth hbeside]
    rfl

/-! ## The index of a tree -/

/-- Where numbers are used once and all files have offsets, the index is the one by recursion. -/
theorem build_eq {root : Tree Directory} (hnodup : (root.labels.map (·.id)).Nodup)
    (hoffsets : ∀ place ∈ root.placesAt [], plan.HasOffsets place) :
    plan.build root = .ok (plan.index root) := by
  set found := plan.distances 0 [{ tree := root, depth := 0, above := 0 }] with hfound
  have hcovers : plan.Covers (root.placesAt []) found := plan.covers_distances root
  have hids : (found.map (·.1)).Nodup := by
    rw [← root.map_label_placesAt [], List.map_map] at hnodup
    exact hcovers.ids.nodup_iff.mpr hnodup
  have hready : ∀ place ∈ root.placesAt [], plan.Ready (latest? found) place := by
    intro place hmem
    refine ⟨fun item hitem => latest?_of_mem hids ?_, hoffsets place hmem⟩
    exact hcovers.below place hmem (List.mem_map_of_mem (f := spot) hitem)
  obtain ⟨hroot, hbelow⟩ := List.forall_mem_cons.mp hready
  have hdepth : [Name.key plan.encoding root.label.name].length = ([] : Location).length + 1 := rfl
  rw [build, ← hfound, plan.siblings_eq hdepth hbelow]
  exact plan.node_eq rfl hroot

/-! ## Files without offsets -/

variable {plan} in
/-- The record of a directory is built only if its files have offsets and the records below it
    are built. -/
theorem hasOffsets_of_node (place : Place) {distance? : DirectoryId → Option Int}
    {ancestors : List UInt64} {below : List Sibling} {index : Index}
    (h : plan.node distance? place.location ancestors place.tree.label below = .ok index) :
    plan.HasOffsets place ∧ ∀ sibling ∈ below, ∃ inner, sibling.index = .ok inner := by
  rw [node] at h
  obtain ⟨placed, hplaced, h⟩ := Outcome.bind_eq_ok_iff.mp h
  obtain ⟨files, hfiles, h⟩ := Outcome.bind_eq_ok_iff.mp h
  obtain ⟨indexes, hindexes, -⟩ := Outcome.bind_eq_ok_iff.mp h
  refine ⟨hasOffsets_of_fileEntries hfiles, fun sibling hmem => ?_⟩
  obtain ⟨item, hitem, hvalue⟩ :=
    Outcome.exists_of_mapM_eq_ok hplaced ((Sorted.perm_sort _ _).mem_iff.mpr hmem)
  obtain ⟨inner, -, hinner⟩ :=
    Outcome.exists_of_mapM_eq_ok hindexes ((Sorted.perm_sort _ _).mem_iff.mpr hitem)
  refine ⟨inner, ?_⟩
  rw [Sibling.placed] at hvalue
  split at hvalue
  · obtain rfl := Except.ok.inj hvalue
    exact hinner
  · cases hvalue

variable {plan} in
theorem hasOffsets_of_siblings {distance? : DirectoryId → Option Int} {above : Location}
    {ancestors : List UInt64} {forest : Forest Directory}
    (h : ∀ sibling ∈ plan.siblings distance? above ancestors forest,
      ∃ index, sibling.index = .ok index) :
    ∀ place ∈ forest.places above, plan.HasOffsets place := by
  induction forest generalizing above ancestors with
  | nil => simp [Forest.places]
  | cons directory below rest ihBelow ihRest =>
    obtain ⟨⟨index, hindex⟩, hothers⟩ := List.forall_mem_cons.mp h
    obtain ⟨hown, hinside⟩ :=
      hasOffsets_of_node ⟨above ++ [directory.name], ⟨directory, below⟩⟩ hindex
    rw [Forest.places]
    exact List.forall_mem_cons.mpr
      ⟨hown, List.forall_mem_append.mpr ⟨ihBelow hinside, ihRest hothers⟩⟩

variable {plan} in
/-- An index is built only if every file has an offset. -/
theorem hasOffsets_of_build {root : Tree Directory} {index : Index}
    (h : plan.build root = .ok index) :
    ∀ place ∈ root.placesAt [], plan.HasOffsets place := by
  obtain ⟨hroot, hbelow⟩ := hasOffsets_of_node ⟨[], root⟩ h
  exact List.forall_mem_cons.mpr ⟨hroot, hasOffsets_of_siblings hbelow⟩

end Plan

end HashArchive.Index
