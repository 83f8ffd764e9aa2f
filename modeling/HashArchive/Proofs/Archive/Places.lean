/-
  HashArchive.Proofs.Archive.Places

  The list of all directories against the two ways to find one: the names on the way to
  a directory lead to it and to no other (`mem_places_iff`), and so does its number
  (`place?_eq_some_iff`).
-/
import Mathlib
import HashArchive.Proofs.Archive.WellFormed

namespace HashArchive

/-- The directories of a tree in preorder, where the root of the tree is at a location. -/
def Tree.placesAt (tree : Tree Directory) (location : Location) : List Place :=
  ⟨location, tree⟩ :: tree.below.places location

namespace Forest

/-- The places of a forest in order are the ones that names lead to. -/
theorem mem_places_iff {forest : Forest Directory} (h : forest.Ordered) {above : Location}
    {place : Place} :
    place ∈ forest.places above ↔
      ∃ name names, place.location = above ++ name :: names ∧
        forest.descend? (name :: names) = some place.tree := by
  induction forest generalizing above with
  | nil => simp [places, descend?]
  | cons directory below rest ihBelow ihRest =>
    obtain ⟨h₁, h₂, h₃⟩ := h
    rw [places, List.mem_cons, List.mem_append, ihBelow h₁, ihRest h₂]
    constructor
    · rintro (rfl | ⟨name, names, hlocation, hfound⟩ | ⟨name, names, hlocation, hfound⟩)
      · exact ⟨directory.name, [], rfl, descend?_cons_head directory below rest []⟩
      · refine ⟨directory.name, name :: names, by simp [hlocation], ?_⟩
        rw [descend?_cons_head]
        exact hfound
      · have hmem : name ∈ rest.names := by
          by_contra hnot
          rw [descend?_eq_none_of_notMem hnot] at hfound
          cases hfound
        exact ⟨name, names, hlocation,
          (descend?_cons_tail (Name.ne_of_before (h₃ name hmem)) below rest names).trans hfound⟩
    · rintro ⟨name, names, hlocation, hfound⟩
      -- The first name picks the tree: the head, or one of the later siblings.
      by_cases hname : directory.name = name
      · subst hname
        rw [descend?_cons_head] at hfound
        cases names with
        | nil =>
          obtain ⟨location, tree⟩ := place
          obtain rfl := Option.some.inj hfound
          exact Or.inl (by simpa using hlocation)
        | cons other names =>
          exact Or.inr (Or.inl ⟨other, names, by simp [hlocation], hfound⟩)
      · rw [descend?_cons_tail hname] at hfound
        exact Or.inr (Or.inr ⟨name, names, hlocation, hfound⟩)

/-- The places of a forest hold its directories in preorder. -/
theorem map_label_places (forest : Forest Directory) (above : Location) :
    (forest.places above).map (·.tree.label) = forest.labels := by
  induction forest generalizing above with
  | nil => rfl
  | cons directory below rest ihBelow ihRest => simp [places, labels, ihBelow, ihRest]

/-- The places of a forest are those of its trees, one tree after another. -/
theorem places_eq_flatMap (forest : Forest Directory) (above : Location) :
    forest.places above
      = forest.trees.flatMap fun tree => tree.placesAt (above ++ [tree.label.name]) := by
  induction forest with
  | nil => rfl
  | cons directory below rest _ ihRest => rw [places, trees, List.flatMap_cons, ihRest]; rfl

theorem mem_places_of_mem_trees {forest : Forest Directory} {tree : Tree Directory}
    (h : tree ∈ forest.trees) (above : Location) :
    ⟨above ++ [tree.label.name], tree⟩ ∈ forest.places above := by
  rw [places_eq_flatMap]
  exact List.mem_flatMap.mpr ⟨tree, h, List.mem_cons_self⟩

theorem mem_places_of_mem_places_below {forest : Forest Directory} {tree : Tree Directory}
    (h : tree ∈ forest.trees) {above : Location} {place : Place}
    (hplace : place ∈ tree.below.places (above ++ [tree.label.name])) :
    place ∈ forest.places above := by
  rw [places_eq_flatMap]
  exact List.mem_flatMap.mpr ⟨tree, h, List.mem_cons_of_mem _ hplace⟩

end Forest

theorem Tree.map_label_placesAt (tree : Tree Directory) (location : Location) :
    (tree.placesAt location).map (·.tree.label) = tree.labels := by
  rw [placesAt, List.map_cons, Forest.map_label_places]
  rfl

namespace Archive

variable {archive : Archive} {place : Place}

/-! ## Directories by their names -/

/-- A place is a location and what the names there lead to. -/
theorem mem_places_iff (h : archive.WellFormed) :
    place ∈ archive.places ↔ archive.descend? place.location = some place.tree := by
  obtain ⟨location, tree⟩ := place
  have hbelow : (⟨location, tree⟩ : Place) ∈ archive.root.below.places [] ↔
      ∃ name names, location = [] ++ name :: names ∧
        archive.root.below.descend? (name :: names) = some tree :=
    Forest.mem_places_iff h.ordered
  rw [places, List.mem_cons, hbelow]
  cases location with
  | nil => simp [descend?, eq_comm]
  | cons name names => simp [descend?, Tree.descend?]

theorem map_label_places (archive : Archive) :
    archive.places.map (·.tree.label) = archive.root.labels :=
  archive.root.map_label_placesAt []

theorem label_mem_of_mem_places (h : place ∈ archive.places) :
    place.tree.label ∈ archive.root.labels := by
  rw [← map_label_places]
  exact List.mem_map_of_mem h

theorem live_of_mem_places (h : archive.WellFormed) (hmem : place ∈ archive.places) :
    archive.Live place.location := by
  rw [Live, (mem_places_iff h).mp hmem]
  rfl

/-- No two directories have one number. -/
theorem nodup_ids (h : archive.WellFormed) : (archive.places.map Place.id).Nodup := by
  have hids := h.nodup
  rw [← map_label_places, List.map_map] at hids
  exact hids

/-- No two directories are at one location. -/
theorem nodup_locations (h : archive.WellFormed) :
    (archive.places.map (·.location)).Nodup := by
  refine (List.nodup_map_iff_inj_on (nodup_ids h).of_map).mpr ?_
  rintro ⟨location, tree⟩ hplace ⟨other, tree'⟩ hother (rfl : location = other)
  have hfound := (mem_places_iff h).mp hplace
  rw [(mem_places_iff h).mp hother] at hfound
  exact congrArg (Place.mk location) (Option.some.inj hfound).symm

theorem mem_locations_iff (h : archive.WellFormed) {location : Location} :
    location ∈ archive.places.map (·.location) ↔ archive.Live location := by
  rw [List.mem_map]
  constructor
  · rintro ⟨place, hplace, rfl⟩
    exact live_of_mem_places h hplace
  · intro hlive
    obtain ⟨tree, htree⟩ := Option.isSome_iff_exists.mp hlive
    exact ⟨⟨location, tree⟩, (mem_places_iff h).mpr htree, rfl⟩

/-- A directory other than the root is in the last of the names that lead to it. -/
theorem name_of_mem_places (h : archive.WellFormed) {above : Location} {name : String}
    {tree : Tree Directory} (hmem : ⟨above ++ [name], tree⟩ ∈ archive.places) :
    tree.label.name = name :=
  Tree.name_of_descend? ((mem_places_iff h).mp hmem)

/-! ## Directories by their numbers -/

/-- Directories of one number are one directory. -/
theorem eq_of_id_eq (h : archive.WellFormed) {other : Place} (hplace : place ∈ archive.places)
    (hother : other ∈ archive.places) (hid : place.id = other.id) : place = other :=
  List.inj_on_of_nodup_map (nodup_ids h) hplace hother hid

/-- A directory is found by its number. -/
theorem place?_eq_some_iff (h : archive.WellFormed) {id : DirectoryId} :
    archive.place? id = some place ↔ place ∈ archive.places ∧ place.id = id := by
  rw [place?]
  constructor
  · intro hfound
    exact ⟨List.mem_of_find?_eq_some hfound, by simpa using List.find?_some hfound⟩
  · rintro ⟨hmem, hid⟩
    have hsome : (archive.places.find? (·.id == id)).isSome :=
      List.find?_isSome.mpr ⟨place, hmem, by simpa using hid⟩
    obtain ⟨other, hother⟩ := Option.isSome_iff_exists.mp hsome
    have hotherId : other.id = id := by simpa using List.find?_some hother
    rw [hother, eq_of_id_eq h (List.mem_of_find?_eq_some hother) hmem (hotherId.trans hid.symm)]

/-- Of all directories only the root has the root's number. -/
theorem location_eq_nil_iff (h : archive.WellFormed) (hmem : place ∈ archive.places) :
    place.location = [] ↔ place.id = rootId := by
  have hroot : (⟨[], archive.root⟩ : Place) ∈ archive.places := List.mem_cons_self
  constructor
  · intro hlocation
    have hfound := (mem_places_iff h).mp hmem
    rw [hlocation] at hfound
    have htree : place.tree = archive.root := (Option.some.inj hfound).symm
    rw [Place.id, htree]
    exact h.root_id
  · intro hid
    rw [eq_of_id_eq h hmem hroot (hid.trans h.root_id.symm)]

theorem place?_rootId (h : archive.WellFormed) : archive.place? rootId = some ⟨[], archive.root⟩ :=
  (place?_eq_some_iff h).mpr ⟨List.mem_cons_self, h.root_id⟩

/-! ## The directories above -/

/-- Above a directory there are directories. -/
theorem exists_above_of_mem_places (h : archive.WellFormed) {above : Location} {name : String}
    {tree : Tree Directory} (hmem : ⟨above ++ [name], tree⟩ ∈ archive.places) :
    ∃ holder, ⟨above, holder⟩ ∈ archive.places ∧ holder.descend? [name] = some tree := by
  have hfound := (mem_places_iff h).mp hmem
  rw [descend?] at hfound
  rw [Tree.descend?_append, Option.bind_eq_some_iff] at hfound
  obtain ⟨holder, hholder, hfound⟩ := hfound
  exact ⟨holder, (mem_places_iff h).mpr hholder, hfound⟩

/-- The names at a place are those of directories. -/
theorem plain_of_mem_location (h : archive.WellFormed) (hmem : place ∈ archive.places)
    {name : String} (hname : name ∈ place.location) : Path.Plain name := by
  obtain ⟨location, tree⟩ := place
  induction location using List.reverseRecOn generalizing tree with
  | nil => cases hname
  | append_singleton above last ih =>
    rcases List.mem_append.mp hname with hname | hname
    · obtain ⟨holder, hholder, -⟩ := exists_above_of_mem_places h hmem
      exact ih holder hholder hname
    · rw [List.mem_singleton] at hname
      obtain rfl : tree.label.name = name := hname ▸ name_of_mem_places h hmem
      apply h.plain tree.label (label_mem_of_mem_places hmem)
      intro hid
      have hnil := (location_eq_nil_iff h hmem).mpr hid
      simp at hnil

/-- A directory other than the root has a plain name. -/
theorem plain_name_of_mem_places (h : archive.WellFormed) (hmem : place ∈ archive.places)
    (hid : place.id ≠ rootId) : Path.Plain place.name :=
  h.plain _ (label_mem_of_mem_places hmem) hid

/-- A directory below the root has names that lead to it. -/
theorem location_ne_nil_of_mem_below (h : archive.WellFormed)
    (hmem : place ∈ archive.root.below.places []) : place.location ≠ [] := by
  obtain ⟨name, names, hlocation, -⟩ := (Forest.mem_places_iff h.ordered).mp hmem
  rw [hlocation]
  exact List.cons_ne_nil _ _

/-- A directory below the root has a plain name. -/
theorem plain_name_of_mem_below (h : archive.WellFormed)
    (hmem : place ∈ archive.root.below.places []) : Path.Plain place.name := by
  have hplace : place ∈ archive.places := List.mem_cons_of_mem _ hmem
  refine plain_name_of_mem_places h hplace fun hid => ?_
  exact location_ne_nil_of_mem_below h hmem ((location_eq_nil_iff h hplace).mpr hid)

/-! ## Files -/

theorem mem_files_iff {file : StoredFile} :
    file ∈ archive.files ↔
      file.place ∈ archive.places ∧ file.entry ∈ file.place.tree.label.files := by
  rw [files]
  rw [List.mem_flatMap]
  constructor
  · rintro ⟨place, hplace, hfile⟩
    obtain ⟨entry, hentry, rfl⟩ := List.mem_map.mp hfile
    exact ⟨hplace, (Sorted.perm_sort _ _).mem_iff.mp hentry⟩
  · rintro ⟨hplace, hentry⟩
    refine ⟨file.place, hplace, List.mem_map.mpr ⟨file.entry, ?_, rfl⟩⟩
    exact (Sorted.perm_sort _ _).mem_iff.mpr hentry

/-- There are as many files as the directories hold. -/
theorem length_files (archive : Archive) :
    archive.files.length
      = (archive.places.map fun place => place.tree.label.files.length).sum := by
  rw [files, List.length_flatMap]
  congr 1
  refine List.map_congr_left fun place _ => ?_
  rw [List.length_map]
  exact (Sorted.perm_sort _ _).length_eq

/-- A file has a plain name. -/
theorem plain_name_of_mem_files (h : archive.WellFormed) {file : StoredFile}
    (hmem : file ∈ archive.files) : Path.Plain file.entry.name := by
  obtain ⟨hplace, hentry⟩ := mem_files_iff.mp hmem
  exact ((h.sound _ (label_mem_of_mem_places hplace)).entries _ hentry).plain

/-- A file is found where it is kept. -/
theorem file?_eq_some_iff (h : archive.WellFormed) (hmem : place ∈ archive.places) {key : String}
    {entry : Entry} :
    archive.file? ⟨place.location, key⟩ = some ⟨place, entry⟩ ↔
      entry ∈ place.tree.label.files ∧ entry.key = key := by
  have hsound := h.sound place.tree.label (label_mem_of_mem_places hmem)
  rw [← Directory.file?_eq_some_iff hsound.ascending]
  rw [file?]
  rw [(mem_places_iff h).mp hmem]
  cases hfile : place.tree.label.file? key with
  | none => simp [hfile]
  | some found => simp [hfile]

theorem file?_address (h : archive.WellFormed) {file : StoredFile} (hmem : file ∈ archive.files) :
    archive.file? file.address = some file :=
  (file?_eq_some_iff h (mem_files_iff.mp hmem).1).mpr ⟨(mem_files_iff.mp hmem).2, rfl⟩

/-- Files at one address are one file. -/
theorem eq_of_address_eq (h : archive.WellFormed) {file other : StoredFile}
    (hfile : file ∈ archive.files) (hother : other ∈ archive.files)
    (heq : file.address = other.address) : file = other := by
  have hfound := file?_address h hfile
  rw [heq, file?_address h hother] at hfound
  exact (Option.some.inj hfound).symm

/-- The files of one directory are listed in order. -/
theorem pairwise_files (h : archive.WellFormed) :
    archive.files.Pairwise fun file other =>
      file.place.location = other.place.location → Entry.before file.entry other.entry = true := by
  rw [files]
  rw [List.pairwise_flatMap]
  constructor
  · intro place hplace
    have hsound := h.sound place.tree.label (label_mem_of_mem_places hplace)
    rw [List.pairwise_map]
    refine hsound.pairwise_listing.imp fun hbefore => ?_
    exact fun _ => hbefore
  · refine (List.pairwise_map.mp (nodup_locations h)).imp fun hne file hfile other hother heq => ?_
    obtain ⟨entry, -, rfl⟩ := List.mem_map.mp hfile
    obtain ⟨entry', -, rfl⟩ := List.mem_map.mp hother
    exact absurd heq hne

/-- No file is listed twice. -/
theorem nodup_files (h : archive.WellFormed) : archive.files.Nodup := by
  refine (pairwise_files h).imp fun hbefore heq => ?_
  -- No file comes before itself.
  obtain rfl := heq
  exact absurd rfl (ne_of_lt (Entry.key_lt_of_before (hbefore rfl) rfl))

/-- No two files are at one address. -/
theorem nodup_addresses (h : archive.WellFormed) : (archive.files.map (·.address)).Nodup :=
  (List.nodup_map_iff_inj_on (nodup_files h)).mpr fun _ hfile _ hother heq =>
    eq_of_address_eq h hfile hother heq

end Archive

end HashArchive
