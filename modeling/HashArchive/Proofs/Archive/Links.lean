/-
  HashArchive.Proofs.Archive.Links

  Directories as their numbers see them: each one names the directory above it and the
  subdirectories in it, and the two views agree (`Linked`).  Loops that follow the numbers,
  up to the root (`Climbs`) or down from it (`Lists`), end and meet directories only.
-/
import Mathlib
import HashArchive.Proofs.Archive.Reachable

namespace HashArchive

/-- The numbers of the subdirectories in the order of their names. -/
def Place.subdirectories (place : Place) : List DirectoryId :=
  place.tree.below.trees.map (·.label.id)

namespace Archive

/-- The loop up from a directory ends at the root and passes these names, the root's own
    left out. -/
inductive Climbs (archive : Archive) : DirectoryId → Location → Prop
  | root {place : Place} (live : archive.place? rootId = some place)
      (last : archive.parent? place = none) : Climbs archive rootId []
  | step {id parent : DirectoryId} {place : Place} {names : Location}
      (live : archive.place? id = some place) (up : archive.parent? place = some parent)
      (above : Climbs archive parent names) : Climbs archive id (names ++ [place.name])

/-- The loop that takes a directory from a stack, lists it and puts its subdirectories on
    the stack ends with this list. -/
inductive Lists (archive : Archive) : (stack listed : List DirectoryId) → Prop
  | done : Lists archive [] []
  | visit {id : DirectoryId} {place : Place} {stack listed : List DirectoryId}
      (live : archive.place? id = some place)
      (rest : Lists archive (place.subdirectories ++ stack) listed) :
      Lists archive (id :: stack) (id :: listed)

/-- What the numbers of the directories lead to. -/
structure Linked (archive : Archive) : Prop where
  root : ∃ place, archive.place? rootId = some place ∧ archive.parent? place = none
  above : ∀ {id place}, archive.place? id = some place → id ≠ rootId →
    ∃ parent holder, archive.parent? place = some parent ∧ archive.place? parent = some holder ∧
      holder.subdirectory? place.name = some id
  below : ∀ {id holder name child}, archive.place? id = some holder →
    holder.subdirectory? name = some child →
    ∃ place, archive.place? child = some place ∧ place.name = name ∧ archive.parent? place = some id
  bounded : ∀ {id place}, archive.place? id = some place → id < archive.nextId
  keyed : ∀ {id place key entry}, archive.place? id = some place →
    place.tree.label.file? key = some entry →
    entry.key = key ∧ archive.file? ⟨place.location, key⟩ = some ⟨place, entry⟩
  climbs : ∀ {id place}, archive.place? id = some place → archive.Climbs id place.location
  lists : archive.Lists [rootId] (archive.places.map Place.id)
  files : ∀ file ∈ archive.files, archive.place? file.place.id = some file.place ∧
    archive.file? file.address = some file

/-! ## The links of one directory -/

section Links

variable {archive : Archive} {place : Place} (h : archive.WellFormed)
include h

theorem place?_id (hmem : place ∈ archive.places) : archive.place? place.id = some place :=
  (place?_eq_some_iff h).mpr ⟨hmem, rfl⟩

theorem parent?_eq_none_iff (hmem : place ∈ archive.places) :
    archive.parent? place = none ↔ place.id = rootId := by
  rw [← location_eq_nil_iff h hmem]
  constructor
  · intro hnone
    by_contra hne
    have hlive := live_dropLast (live_of_mem_places h hmem)
    rw [parent?, if_neg hne, Option.map_eq_none_iff] at hnone
    rw [Live, hnone] at hlive
    cases hlive
  · exact fun hnil => if_pos hnil

/-- The directory above is the one that holds this one under its name. -/
theorem parent?_eq_some_iff (hmem : place ∈ archive.places) {id : DirectoryId} :
    archive.parent? place = some id ↔
      ∃ holder, archive.place? id = some holder ∧
        place.location = holder.location ++ [place.name] ∧
        holder.subdirectory? place.name = some place.id := by
  obtain ⟨location, tree⟩ := place
  constructor
  · intro hparent
    rcases List.eq_nil_or_concat' location with rfl | ⟨above, name, rfl⟩
    · rw [parent?, if_pos rfl] at hparent
      cases hparent
    · obtain ⟨holder, hholder, hchild⟩ := exists_above_of_mem_places h hmem
      have hname : tree.label.name = name := name_of_mem_places h hmem
      have hfound : archive.descend? above = some holder := (mem_places_iff h).mp hholder
      have hid : holder.label.id = id := by
        rw [parent?, if_neg (by simp)] at hparent
        simpa [hfound] using hparent
      refine ⟨⟨above, holder⟩, (place?_eq_some_iff h).mpr ⟨hholder, hid⟩, ?_, ?_⟩
      · simp [Place.name, hname]
      · rw [Place.subdirectory?, Place.name, hname]
        exact congrArg (Option.map _) hchild
  · rintro ⟨holder, hholder, hlocation, -⟩
    obtain ⟨hmem', hid⟩ := (place?_eq_some_iff h).mp hholder
    have hfound : archive.descend? holder.location = some holder.tree := (mem_places_iff h).mp hmem'
    dsimp only at hlocation
    rw [parent?, hlocation, if_neg (by simp), List.dropLast_concat, hfound]
    exact congrArg some hid

/-- A subdirectory is one level below. -/
theorem place?_of_subdirectory? (hmem : place ∈ archive.places) {name : String}
    {id : DirectoryId} (hchild : place.subdirectory? name = some id) :
    ∃ child, archive.place? id = some child ∧ child.name = name ∧
      child.location = place.location ++ [name] := by
  obtain ⟨tree, htree, rfl⟩ := Option.map_eq_some_iff.mp hchild
  have hfound : archive.root.descend? place.location = some place.tree := (mem_places_iff h).mp hmem
  have hbelow : archive.descend? (place.location ++ [name]) = some tree := by
    rw [descend?, Tree.descend?_append, hfound]
    exact htree
  have hmem' : (⟨place.location ++ [name], tree⟩ : Place) ∈ archive.places :=
    (mem_places_iff h).mpr hbelow
  exact ⟨_, place?_id h hmem', name_of_mem_places h hmem', rfl⟩

end Links

/-! ## The loops -/

section Loops

variable {archive : Archive} (h : archive.WellFormed)
include h

/-- The loop up passes the names that lead down. -/
theorem climbs_of_mem_places {place : Place} (hmem : place ∈ archive.places) :
    archive.Climbs place.id place.location := by
  obtain ⟨location, tree⟩ := place
  -- The loop goes up, so the induction takes the last name off the location.
  induction location using List.reverseRecOn generalizing tree with
  | nil =>
    have hid := (location_eq_nil_iff h hmem).mp rfl
    have hlive := place?_id h hmem
    rw [hid] at hlive ⊢
    exact .root hlive ((parent?_eq_none_iff h hmem).mpr hid)
  | append_singleton above name ih =>
    obtain ⟨holder, hholder, hchild⟩ := exists_above_of_mem_places h hmem
    have hname : tree.label.name = name := name_of_mem_places h hmem
    have hparent : archive.parent? ⟨above ++ [name], tree⟩ = some holder.label.id := by
      refine (parent?_eq_some_iff h hmem).mpr ⟨_, place?_id h hholder, ?_, ?_⟩
      · simp [Place.name, hname]
      · rw [Place.subdirectory?, Place.name, hname]
        exact congrArg (Option.map _) hchild
    have hstep := Climbs.step (place?_id h hmem) hparent (ih holder hholder)
    simpa only [Place.name, hname] using hstep

/-- The loop down from the siblings of a forest lists them in preorder, and then what is
    listed from the rest of the stack. -/
theorem lists_forest (forest : Forest Directory) (above : Location)
    (hmem : ∀ place ∈ forest.places above, place ∈ archive.places)
    {stack listed : List DirectoryId} (hrest : archive.Lists stack listed) :
    archive.Lists (forest.trees.map (·.label.id) ++ stack)
      ((forest.places above).map Place.id ++ listed) := by
  induction forest generalizing above stack listed with
  | nil => exact hrest
  | cons directory below rest ihBelow ihRest =>
    set place : Place := ⟨above ++ [directory.name], ⟨directory, below⟩⟩ with hplace
    have hlive := place?_id h (hmem place (by simp [Forest.places, hplace]))
    have hlater := ihRest above (fun other hother =>
      hmem other (by simp [Forest.places, hother])) hrest
    have hinside := ihBelow (above ++ [directory.name]) (fun other hother =>
      hmem other (by simp [Forest.places, hother])) hlater
    have hvisit := Lists.visit hlive hinside
    simpa [Forest.trees, Forest.places, Place.id, hplace] using hvisit

theorem lists_places : archive.Lists [rootId] (archive.places.map Place.id) := by
  have hbelow := lists_forest h archive.root.below []
    (fun place hmem => List.mem_cons_of_mem _ hmem) Lists.done
  have hvisit := Lists.visit (place?_rootId h) hbelow
  have hroot : (⟨[], archive.root⟩ : Place).id = rootId := h.root_id
  simpa [places, hroot] using hvisit

end Loops

/-! ## All links -/

theorem linked_of_wellFormed {archive : Archive} (h : archive.WellFormed) : archive.Linked where
  root := ⟨_, place?_rootId h,
    (parent?_eq_none_iff h List.mem_cons_self).mpr h.root_id⟩
  above := by
    intro id place hplace hid
    obtain ⟨hmem, rfl⟩ := (place?_eq_some_iff h).mp hplace
    obtain ⟨parent, hparent⟩ : ∃ parent, archive.parent? place = some parent := by
      rw [← Option.ne_none_iff_exists']
      exact fun hnone => hid ((parent?_eq_none_iff h hmem).mp hnone)
    obtain ⟨holder, hholder, -, hchild⟩ := (parent?_eq_some_iff h hmem).mp hparent
    exact ⟨parent, holder, hparent, hholder, hchild⟩
  below := by
    intro id holder name child hholder hchild
    obtain ⟨hmem, rfl⟩ := (place?_eq_some_iff h).mp hholder
    obtain ⟨place, hplace, hname, hlocation⟩ := place?_of_subdirectory? h hmem hchild
    obtain ⟨hmem', rfl⟩ := (place?_eq_some_iff h).mp hplace
    refine ⟨place, hplace, hname, (parent?_eq_some_iff h hmem').mpr ⟨holder, hholder, ?_, ?_⟩⟩
    · rw [hlocation, hname]
    · rw [hname]
      exact hchild
  bounded := by
    intro id place hplace
    obtain ⟨hmem, rfl⟩ := (place?_eq_some_iff h).mp hplace
    exact h.bounded _ (label_mem_of_mem_places hmem)
  keyed := by
    intro id place key entry hplace hfile
    obtain ⟨hmem, -⟩ := (place?_eq_some_iff h).mp hplace
    have hsound := h.sound _ (label_mem_of_mem_places hmem)
    have hentry := (Directory.file?_eq_some_iff hsound.ascending).mp hfile
    exact ⟨hentry.2, (file?_eq_some_iff h hmem).mpr hentry⟩
  climbs := by
    intro id place hplace
    obtain ⟨hmem, rfl⟩ := (place?_eq_some_iff h).mp hplace
    exact climbs_of_mem_places h hmem
  lists := lists_places h
  files := by
    intro file hmem
    exact ⟨place?_id h (mem_files_iff.mp hmem).1, file?_address h hmem⟩

/-- A new archive with two directories, one in the other. -/
def nested : Archive where
  root := ⟨{ id := rootId, name := "root" },
    .cons { id := 1, name := "a" } (.cons { id := 2, name := "b" } .nil .nil) .nil⟩
  nextId := 3

end Archive

end HashArchive
