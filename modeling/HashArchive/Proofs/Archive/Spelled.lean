/-
  HashArchive.Proofs.Archive.Spelled

  The directories and files of an index under the names that a table has for them.  The
  reader goes to none but these.  They are all different, and it goes to all of them, if and
  only if no record has a key twice (`nodup_locations_iff`, `visits_of_mem_spelled`).
-/
import Mathlib
import HashArchive.Proofs.Archive.Reading

namespace HashArchive

/-- A record of an index, and the names that lead to it. -/
structure SpelledRecord where
  location : Location
  record : IndexRecord

/-- The records of a forest in preorder, with the names of the records above. -/
def Forest.spelled (names : NameTable) (above : Location) :
    Forest IndexRecord → List SpelledRecord
  | .nil => []
  | .cons record below rest =>
    ⟨above ++ [names.nameOf record.id], record⟩
      :: (below.spelled names (above ++ [names.nameOf record.id]) ++ rest.spelled names above)

namespace Index

/-- The records of an index in preorder, where its own directory is at a location. -/
def spelled (names : NameTable) (index : Index) (location : Location) : List SpelledRecord :=
  ⟨location, index.label⟩ :: index.below.spelled names location

/-- The locations of the directories of an index. -/
def locations (names : NameTable) (index : Index) (location : Location) : List Location :=
  (index.spelled names location).map (·.location)

/-- The addresses of the files of an index. -/
def addresses (names : NameTable) (index : Index) (location : Location) : List FileAddress :=
  (index.spelled names location).flatMap fun item =>
    item.record.files.map fun entry => ⟨item.location, names.nameOf entry.key⟩

/-- The entries of each record lead to those below it, to one each. -/
inductive Keyed : Index → Prop
  | mk {index : Index}
      (keys : index.label.directories.map (·.key) = index.below.trees.map (·.label.id))
      (below : ∀ child ∈ index.below.trees, Keyed child) : Keyed index

end Index

variable {names : NameTable} {index : Index} {location above : Location}

/-! ## The list of the records -/

theorem Forest.spelled_eq_flatMap (names : NameTable) (forest : Forest IndexRecord)
    (above : Location) :
    forest.spelled names above
      = forest.trees.flatMap fun tree =>
          Index.spelled names tree (above ++ [names.nameOf tree.label.id]) := by
  induction forest with
  | nil => rfl
  | cons record below rest _ ih =>
    rw [spelled, trees, List.flatMap_cons, ih]
    rfl

theorem Forest.map_record_spelled (names : NameTable) (forest : Forest IndexRecord)
    (above : Location) : (forest.spelled names above).map (·.record) = forest.labels := by
  induction forest generalizing above with
  | nil => rfl
  | cons record below rest ihBelow ihRest => simp [spelled, labels, ihBelow, ihRest]

namespace Index

theorem map_record_spelled (names : NameTable) (index : Index) (location : Location) :
    (index.spelled names location).map (·.record) = index.labels := by
  rw [spelled, List.map_cons, Forest.map_record_spelled]
  rfl

theorem length_locations (names : NameTable) (index : Index) (location : Location) :
    (index.locations names location).length = index.size := by
  have hlength := congrArg List.length (map_record_spelled names index location)
  rw [List.length_map, Tree.labels, List.length_cons, Forest.length_labels] at hlength
  rw [locations, List.length_map]
  exact hlength

theorem length_addresses (names : NameTable) (index : Index) (location : Location) :
    (index.addresses names location).length = (index.labels.flatMap (·.files)).length := by
  rw [addresses, List.length_flatMap, List.length_flatMap,
    ← map_record_spelled names index location, List.map_map]
  simp only [List.length_map]
  rfl

/-- What is below a directory has its location in front. -/
theorem prefix_of_mem_spelled {item : SpelledRecord} (h : item ∈ index.spelled names location) :
    location <+: item.location := by
  induction index using Tree.induct_below generalizing location with
  | h index ih =>
    rcases List.mem_cons.mp h with rfl | h
    · exact List.prefix_refl _
    · rw [Forest.spelled_eq_flatMap, List.mem_flatMap] at h
      obtain ⟨child, hchild, hitem⟩ := h
      exact (List.prefix_append _ _).trans (ih child hchild hitem)

theorem mem_spelled_of_mem_trees {child : Index} (hchild : child ∈ index.below.trees)
    {item : SpelledRecord}
    (h : item ∈ child.spelled names (location ++ [names.nameOf child.label.id])) :
    item ∈ index.spelled names location := by
  apply List.mem_cons_of_mem
  rw [Forest.spelled_eq_flatMap]
  exact List.mem_flatMap.mpr ⟨child, hchild, h⟩

theorem label_mem_of_mem_trees {child : Index} (hchild : child ∈ index.below.trees) :
    child.label ∈ index.below.labels :=
  Forest.mem_labels_of_mem_trees hchild List.mem_cons_self

theorem id_of_child? {key : UInt64} {child : Index} (h : index.child? key = some child) :
    child.label.id = key := by
  simpa using List.find?_some h

/-- A record is found by its key where siblings have different keys. -/
theorem child?_of_mem_trees (hnodup : (index.below.trees.map (·.label.id)).Nodup) {child : Index}
    (hmem : child ∈ index.below.trees) : index.child? child.label.id = some child := by
  have hsome : (index.child? child.label.id).isSome :=
    List.find?_isSome.mpr ⟨child, hmem, by simp⟩
  obtain ⟨found, hfound⟩ := Option.isSome_iff_exists.mp hsome
  rw [hfound, List.inj_on_of_nodup_map hnodup (List.mem_of_find?_eq_some hfound) hmem
    (id_of_child? hfound)]

end Index

/-! ## Where the reader goes -/

namespace Archive

/-- An index can be read when the names of its directories and files are found. -/
theorem readable_of_keyed {origin : Origin} (hkeyed : index.Keyed)
    (hfiles : ∀ record ∈ index.labels, ∀ entry ∈ record.files,
      origin.names.Spells entry.key ∧ (positionOf? entry.offset).isSome)
    (hspells : ∀ record ∈ index.below.labels, origin.names.Spells record.id) :
    Readable origin index := by
  induction hkeyed with
  | @mk index keys below ih =>
    refine .mk (hfiles index.label List.mem_cons_self) (fun entry hentry => ?_) ?_
    · have hkey := List.mem_map_of_mem (f := (·.key)) hentry
      rw [keys] at hkey
      obtain ⟨child, hchild, hsame⟩ := List.mem_map.mp hkey
      refine ⟨hsame ▸ hspells child.label (Index.label_mem_of_mem_trees hchild), ?_⟩
      exact List.find?_isSome.mpr ⟨child, hchild, by simp [hsame]⟩
    · intro child hchild
      have hinside : ∀ record ∈ child.labels, record ∈ index.below.labels := fun record =>
        Forest.mem_labels_of_mem_trees hchild
      exact ih child hchild
        (fun record hmem => hfiles record (List.mem_cons_of_mem _ (hinside record hmem)))
        fun record hmem => hspells record (hinside record (List.mem_cons_of_mem _ hmem))

/-- The reader goes to records of the index only. -/
theorem mem_spelled_of_visits {found : Index} {more : Location}
    (h : Visits names index more found) (location : Location) :
    ⟨location ++ more, found.label⟩ ∈ index.spelled names location := by
  induction h generalizing location with
  | here index =>
    rw [List.append_nil]
    exact List.mem_cons_self
  | @down index child found more entry mem leads visits ih =>
    have hchild : child ∈ index.below.trees := List.mem_of_find?_eq_some leads
    have hitem := ih (location ++ [names.nameOf child.label.id])
    rw [Index.id_of_child? leads, List.append_assoc, List.singleton_append] at hitem
    exact Index.mem_spelled_of_mem_trees hchild (Index.id_of_child? leads ▸ hitem)

/-- The reader goes to all records of an index where no record has the key of a directory
    twice. -/
theorem visits_of_mem_spelled (hkeyed : index.Keyed)
    (hapart : ∀ record ∈ index.labels, (record.directories.map (·.key)).Nodup)
    {item : SpelledRecord} (h : item ∈ index.spelled names location) :
    ∃ more found, Visits names index more found ∧ item.location = location ++ more ∧
      found.label = item.record := by
  induction hkeyed generalizing location with
  | @mk index keys below ih =>
    rcases List.mem_cons.mp h with rfl | h
    · exact ⟨[], index, .here index, (List.append_nil _).symm, rfl⟩
    · rw [Forest.spelled_eq_flatMap, List.mem_flatMap] at h
      obtain ⟨child, hchild, hitem⟩ := h
      obtain ⟨more, found, hvisits, hlocation, hrecord⟩ := ih child hchild
        (fun record hmem => hapart record
          (List.mem_cons_of_mem _ (Forest.mem_labels_of_mem_trees hchild hmem))) hitem
      have hnodup := hapart index.label List.mem_cons_self
      rw [keys] at hnodup
      -- There is an entry for the record, and it leads to no other.
      have hkey : child.label.id ∈ index.label.directories.map (·.key) := by
        rw [keys]
        exact List.mem_map_of_mem hchild
      obtain ⟨entry, hentry, hsame⟩ := List.mem_map.mp hkey
      have hleads : index.child? entry.key = some child := by
        rw [hsame]
        exact Index.child?_of_mem_trees hnodup hchild
      refine ⟨_, found, .down hentry hleads hvisits, ?_, hrecord⟩
      rw [hlocation, hsame, List.append_assoc, List.singleton_append]

theorem visited_subset (names : NameTable) (index : Index) (location : Location) :
    visited names index location ⊆ {other | other ∈ index.locations names location} := by
  rintro _ ⟨more, found, hvisits, rfl⟩
  exact List.mem_map_of_mem (f := (·.location)) (mem_spelled_of_visits hvisits location)

theorem visitedFiles_subset (names : NameTable) (index : Index) (location : Location) :
    visitedFiles names index location ⊆ {address | address ∈ index.addresses names location} := by
  rintro ⟨other, key⟩ ⟨more, found, hvisits, rfl, entry, hentry, rfl⟩
  exact List.mem_flatMap.mpr ⟨_, mem_spelled_of_visits hvisits location,
    List.mem_map.mpr ⟨entry, hentry, rfl⟩⟩

theorem subset_visited (hkeyed : index.Keyed)
    (hapart : ∀ record ∈ index.labels, (record.directories.map (·.key)).Nodup) :
    {other | other ∈ index.locations names location} ⊆ visited names index location := by
  intro other hother
  obtain ⟨item, hitem, rfl⟩ := List.mem_map.mp hother
  obtain ⟨more, found, hvisits, hlocation, -⟩ := visits_of_mem_spelled hkeyed hapart hitem
  exact ⟨more, found, hvisits, hlocation⟩

theorem subset_visitedFiles (hkeyed : index.Keyed)
    (hapart : ∀ record ∈ index.labels, (record.directories.map (·.key)).Nodup) :
    {address | address ∈ index.addresses names location} ⊆ visitedFiles names index location := by
  intro address haddress
  obtain ⟨item, hitem, hfile⟩ := List.mem_flatMap.mp haddress
  obtain ⟨entry, hentry, rfl⟩ := List.mem_map.mp hfile
  obtain ⟨more, found, hvisits, hlocation, hrecord⟩ := visits_of_mem_spelled hkeyed hapart hitem
  exact ⟨more, found, hvisits, hlocation, entry, hrecord ▸ hentry, rfl⟩

end Archive

/-! ## Names that clash -/

namespace Index

/-- Siblings have no location in common exactly when their names differ. -/
theorem disjoint_locations_iff {child other : Index} :
    (child.locations names (above ++ [names.nameOf child.label.id])).Disjoint
        (other.locations names (above ++ [names.nameOf other.label.id])) ↔
      names.nameOf child.label.id ≠ names.nameOf other.label.id := by
  constructor
  · intro hdisjoint hsame
    -- Of one name, they would both be at one location.
    have hself : ∀ index : Index, ∀ location, location ∈ index.locations names location :=
      fun _ _ => List.mem_cons_self
    exact hdisjoint (hself child _) (hsame ▸ hself other _)
  · -- A common location would have both in front, and they are of one length.
    intro hne location hlocation hlocation'
    obtain ⟨item, hitem, rfl⟩ := List.mem_map.mp hlocation
    obtain ⟨item', hitem', hsame⟩ := List.mem_map.mp hlocation'
    have hpre := prefix_of_mem_spelled hitem
    have hpre' := prefix_of_mem_spelled hitem'
    rw [hsame] at hpre'
    have heq := List.prefix_of_prefix_length_le hpre hpre' (by simp)
    rw [Archive.append_prefix_append_iff] at heq
    exact hne heq

/-- No two directories of an index share a location if and only if no record has the key of a
    directory twice. -/
theorem nodup_locations_iff (hkeyed : index.Keyed)
    (hspells : ∀ record ∈ index.below.labels, names.Spells record.id) :
    (index.locations names location).Nodup ↔
      ∀ record ∈ index.labels, (record.directories.map (·.key)).Nodup := by
  -- The list is the index's own location, which none below has, and those of its children,
  -- which are apart from each other exactly when the keys of the children differ.
  induction hkeyed generalizing location with
  | @mk index keys below ih =>
    have hlocations : index.locations names location = location ::
        index.below.trees.flatMap fun child : Index =>
          child.locations names (location ++ [names.nameOf child.label.id]) := by
      rw [locations, spelled, List.map_cons, Forest.spelled_eq_flatMap, List.map_flatMap]
      rfl
    have hself : location ∉ index.below.trees.flatMap fun child : Index =>
        child.locations names (location ++ [names.nameOf child.label.id]) := by
      intro hmem
      obtain ⟨child, -, hmem⟩ := List.mem_flatMap.mp hmem
      obtain ⟨item, hitem, heq⟩ := List.mem_map.mp hmem
      exact Archive.not_prefix_self _ _ (heq ▸ prefix_of_mem_spelled hitem)
    have hids : ∀ child ∈ index.below.trees, names.Spells child.label.id := fun child hchild =>
      hspells child.label (label_mem_of_mem_trees hchild)
    have hapart : index.below.trees.Pairwise (Function.onFun List.Disjoint fun child : Index =>
          child.locations names (location ++ [names.nameOf child.label.id])) ↔
        (index.label.directories.map (·.key)).Nodup := by
      rw [keys, List.Nodup, List.pairwise_map]
      refine List.Pairwise.iff_of_mem fun {child other} hchild hother => ?_
      exact disjoint_locations_iff.trans
        (not_congr ((hids child hchild).nameOf_eq_iff (hids other hother)))
    rw [hlocations, List.nodup_cons, List.nodup_flatMap, hapart, Tree.labels, List.forall_mem_cons,
      ← Forest.flatMap_labels_trees, and_iff_right hself, and_comm]
    refine and_congr_right fun _ => ?_
    have hinside : ∀ child : Index, child ∈ index.below.trees →
        ((child.locations names (location ++ [names.nameOf child.label.id])).Nodup ↔
          ∀ record ∈ child.labels, (record.directories.map (·.key)).Nodup) := fun child hchild =>
      ih child hchild fun record hmem => hspells record
        (Forest.mem_labels_of_mem_trees hchild (List.mem_cons_of_mem _ hmem))
    rw [List.forall_mem_flatMap]
    exact forall₂_congr hinside

/-- No two files of an index share an address if and only if no record has the key of a file
    twice, as long as no two directories share a location. -/
theorem nodup_addresses_iff (hlocations : (index.locations names location).Nodup)
    (hspells : ∀ record ∈ index.labels, ∀ entry ∈ record.files, names.Spells entry.key) :
    (index.addresses names location).Nodup ↔
      ∀ record ∈ index.labels, (record.files.map (·.key)).Nodup := by
  -- Files of different records have different locations, so only those of one can clash.
  have hapart : (index.spelled names location).Pairwise (Function.onFun List.Disjoint
      fun item => item.record.files.map fun entry =>
        (⟨item.location, names.nameOf entry.key⟩ : FileAddress)) := by
    rw [locations, List.Nodup, List.pairwise_map] at hlocations
    refine hlocations.imp fun {item other} hne address haddress haddress' => hne ?_
    obtain ⟨entry, -, rfl⟩ := List.mem_map.mp haddress
    obtain ⟨entry', -, hsame⟩ := List.mem_map.mp haddress'
    exact (FileAddress.mk.inj hsame).1.symm
  rw [addresses, List.nodup_flatMap, and_iff_left hapart, ← map_record_spelled names index location,
    List.forall_mem_map]
  refine forall₂_congr fun item hitem => ?_
  have hrecord : item.record ∈ index.labels := by
    rw [← map_record_spelled names index location]
    exact List.mem_map_of_mem hitem
  rw [List.Nodup, List.Nodup, List.pairwise_map, List.pairwise_map]
  refine List.Pairwise.iff_of_mem fun {entry other} hentry hother => not_congr ?_
  rw [FileAddress.mk.injEq, and_iff_right rfl]
  exact (hspells _ hrecord entry hentry).nameOf_eq_iff (hspells _ hrecord other hother)

end Index

end HashArchive
