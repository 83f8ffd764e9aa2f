/-
  HashArchive.Proofs.Archive.Isomorphism

  Archives that hold the same tree under other numbers (`Isomorphic`).  They have the same
  files at every location, and the other way round (`exists_isomorphic_iff`); and what is at
  each location is all that a written archive depends on (`write_eq_of_sameFiles`).
-/
import Mathlib
import HashArchive.Proofs.Archive.Rewrite

namespace HashArchive

/-! ## Trees under other numbers -/

/-- One directory stands for another, when numbers are changed by a function: it has the name,
    the subdirectories and the files of the other. -/
structure Place.StandsFor (f : DirectoryId → DirectoryId) (place image : Place) : Prop where
  name : image.name = place.name
  subdirectories : ∀ name, image.subdirectory? name = (place.subdirectory? name).map f
  files : ∀ entry, entry ∈ image.tree.label.files ↔ entry ∈ place.tree.label.files

namespace Archive

/-- The numbers of the directories of an archive. -/
def ids (archive : Archive) : Set DirectoryId := {id | (archive.place? id).isSome}

/-- The directories of two archives are matched one to one, the root with the root, and each
    stands for the one it is matched with. -/
structure Isomorphic (f : DirectoryId → DirectoryId) (archive other : Archive) : Prop where
  bijective : Set.BijOn f archive.ids other.ids
  root : f rootId = rootId
  standsFor : ∀ place ∈ archive.places, ∀ image ∈ other.places, image.id = f place.id →
    place.StandsFor f image

/-- Two archives have the same directories, and in them the same files. -/
def SameFiles (archive other : Archive) : Prop :=
  ∀ location, other.filesAt location = archive.filesAt location

section

variable {f : DirectoryId → DirectoryId} {archive other : Archive}

theorem mem_ids_iff (h : archive.WellFormed) {id : DirectoryId} :
    id ∈ archive.ids ↔ ∃ place ∈ archive.places, place.id = id := by
  rw [ids, Set.mem_ofPred_eq, Option.isSome_iff_exists]
  exact exists_congr fun place => place?_eq_some_iff h

theorem mem_places_of_descend? (h : archive.WellFormed) {location : Location}
    {tree : Tree Directory} (hfound : archive.descend? location = some tree) :
    ⟨location, tree⟩ ∈ archive.places := (mem_places_iff h).mpr hfound

/-- Going down to a subdirectory is looking it up in the directory. -/
theorem map_id_descend?_append {location : Location} {name : String} {tree : Tree Directory}
    (hfound : archive.descend? location = some tree) :
    (archive.descend? (location ++ [name])).map (·.label.id)
      = (⟨location, tree⟩ : Place).subdirectory? name := by
  rw [descend?] at hfound ⊢
  rw [Tree.descend?_append, hfound, Option.bind_some]
  rfl

/-- The names that lead to a directory lead to the one that stands for it. -/
theorem Isomorphic.map_id_descend? (h : Isomorphic f archive other) (hformed : archive.WellFormed)
    (hformed' : other.WellFormed) (location : Location) :
    (other.descend? location).map (·.label.id)
      = (archive.descend? location).map fun tree => f tree.label.id := by
  induction location using List.reverseRecOn with
  | nil =>
    show some other.root.label.id = some (f archive.root.label.id)
    rw [hformed.root_id, hformed'.root_id, h.root]
  | append_singleton above name ih =>
    cases hholder : archive.descend? above with
    | none =>
      -- Where there is no directory there is none below.
      have hnone : other.descend? above = none := by simpa [hholder] using ih
      rw [descend?] at hholder hnone ⊢
      rw [descend?, Tree.descend?_append, hnone, Tree.descend?_append, hholder]
      rfl
    | some holder =>
      rw [hholder, Option.map_some, Option.map_eq_some_iff] at ih
      obtain ⟨image, himage, hid⟩ := ih
      have hstands := h.standsFor _ (mem_places_of_descend? hformed hholder) _
        (mem_places_of_descend? hformed' himage) hid
      rw [map_id_descend?_append himage, hstands.subdirectories,
        ← map_id_descend?_append hholder, Option.map_map]
      rfl

/-- Archives with isomorphic trees have the same files at every location. -/
theorem Isomorphic.sameFiles (h : Isomorphic f archive other) (hformed : archive.WellFormed)
    (hformed' : other.WellFormed) : SameFiles archive other := by
  intro location
  have hids := h.map_id_descend? hformed hformed' location
  unfold filesAt directory? Tree.directory?
  cases hfound : archive.descend? location with
  | none =>
    rw [hfound, Option.map_none, Option.map_eq_none_iff] at hids
    rw [descend?] at hfound hids
    rw [hfound, hids]
  | some tree =>
    rw [hfound, Option.map_some, Option.map_eq_some_iff] at hids
    obtain ⟨image, himage, hid⟩ := hids
    have hmem := mem_places_of_descend? hformed hfound
    have hmem' := mem_places_of_descend? hformed' himage
    have hfiles : image.label.files = tree.label.files :=
      Entry.eq_of_mem_iff (hformed'.sound _ (label_mem_of_mem_places hmem')).ascending
        (hformed.sound _ (label_mem_of_mem_places hmem)).ascending
        (h.standsFor _ hmem _ hmem' hid).files
    rw [descend?] at hfound himage
    rw [hfound, himage]
    exact congrArg some hfiles

theorem Isomorphic.name_eq (h : Isomorphic f archive other) (hformed : archive.WellFormed)
    (hformed' : other.WellFormed) : other.name = archive.name := by
  have hid : other.root.label.id = f archive.root.label.id := by
    rw [hformed.root_id, hformed'.root_id, h.root]
  exact (h.standsFor ⟨[], archive.root⟩ List.mem_cons_self ⟨[], other.root⟩ List.mem_cons_self
    hid).name

/-! ## The same files at every location -/

/-- The number of the directory at the same location in another archive. -/
def renumber (archive other : Archive) (id : DirectoryId) : DirectoryId :=
  ((archive.place? id).bind fun place =>
    (other.descend? place.location).map (·.label.id)).getD id

/-- Where one archive has a directory so has the other, with the same files. -/
theorem SameFiles.exists_image (h : SameFiles archive other) (hformed : archive.WellFormed)
    {place : Place} (hmem : place ∈ archive.places) :
    ∃ tree, other.descend? place.location = some tree ∧
      tree.label.files = place.tree.label.files ∧
      archive.renumber other place.id = tree.label.id := by
  have hfound := (mem_places_iff hformed).mp hmem
  have hplace : archive.place? place.id = some place :=
    (place?_eq_some_iff hformed).mpr ⟨hmem, rfl⟩
  have hfiles := h place.location
  unfold filesAt directory? Tree.directory? at hfiles
  rw [descend?] at hfound
  rw [hfound, Option.map_some, Option.map_some, Option.map_map, Option.map_eq_some_iff] at hfiles
  obtain ⟨tree, htree, hfiles⟩ := hfiles
  have hother : other.descend? place.location = some tree := htree
  refine ⟨tree, hother, hfiles, ?_⟩
  rw [renumber, hplace, Option.bind_some, hother]
  rfl

theorem SameFiles.symm (h : SameFiles archive other) : SameFiles other archive :=
  fun location => (h location).symm

/-- Directories with matching numbers are at one location. -/
theorem SameFiles.location_eq (h : SameFiles archive other) (hformed : archive.WellFormed)
    (hformed' : other.WellFormed) {place image : Place} (hmem : place ∈ archive.places)
    (hmem' : image ∈ other.places) (hid : image.id = archive.renumber other place.id) :
    image.location = place.location := by
  obtain ⟨tree, htree, -, hnumber⟩ := h.exists_image hformed hmem
  have hsame := eq_of_id_eq hformed' hmem' (mem_places_of_descend? hformed' htree)
    (hid.trans hnumber)
  rw [hsame]

theorem SameFiles.map_id_descend? (h : SameFiles archive other) (hformed : archive.WellFormed)
    (hformed' : other.WellFormed) (location : Location) :
    (other.descend? location).map (·.label.id)
      = (archive.descend? location).map fun tree => archive.renumber other tree.label.id := by
  cases hfound : archive.descend? location with
  | none =>
    cases hother : other.descend? location with
    | none => rfl
    | some image =>
      obtain ⟨tree, htree, -⟩ :=
        h.symm.exists_image hformed' (mem_places_of_descend? hformed' hother)
      rw [hfound] at htree
      cases htree
  | some tree =>
    obtain ⟨image, himage, -, hnumber⟩ :=
      h.exists_image hformed (mem_places_of_descend? hformed hfound)
    rw [himage]
    exact congrArg some hnumber.symm

theorem SameFiles.bijOn_renumber (h : SameFiles archive other) (hformed : archive.WellFormed)
    (hformed' : other.WellFormed) :
    Set.BijOn (archive.renumber other) archive.ids other.ids := by
  refine ⟨fun id hid => ?_, fun id hid id' hid' heq => ?_, fun id hid => ?_⟩
  · obtain ⟨place, hmem, rfl⟩ := (mem_ids_iff hformed).mp hid
    obtain ⟨tree, htree, -, hnumber⟩ := h.exists_image hformed hmem
    exact (mem_ids_iff hformed').mpr
      ⟨_, mem_places_of_descend? hformed' htree, hnumber.symm⟩
  · obtain ⟨place, hmem, rfl⟩ := (mem_ids_iff hformed).mp hid
    obtain ⟨place', hmem', rfl⟩ := (mem_ids_iff hformed).mp hid'
    obtain ⟨tree, htree, -, hnumber⟩ := h.exists_image hformed hmem
    have himage := mem_places_of_descend? hformed' htree
    -- Both are at the location of the directory that they are matched with.
    have hlocation := h.location_eq hformed hformed' hmem himage hnumber.symm
    have hlocation' := h.location_eq hformed hformed' hmem' himage (heq ▸ hnumber.symm)
    have hfound := (mem_places_iff hformed).mp hmem
    rw [← hlocation, hlocation', (mem_places_iff hformed).mp hmem'] at hfound
    exact congrArg (·.label.id) (Option.some.inj hfound).symm
  · obtain ⟨image, hmem', rfl⟩ := (mem_ids_iff hformed').mp hid
    obtain ⟨tree, htree, -, -⟩ := h.symm.exists_image hformed' hmem'
    have hmem := mem_places_of_descend? hformed htree
    obtain ⟨tree', htree', -, hnumber⟩ := h.exists_image hformed hmem
    refine ⟨tree.label.id, (mem_ids_iff hformed).mpr ⟨_, hmem, rfl⟩, ?_⟩
    rw [(mem_places_iff hformed').mp hmem', Option.some.injEq] at htree'
    rw [Place.id, htree']
    exact hnumber

/-- Trees are isomorphic exactly when the archives have one name and the same files at every
    location. -/
theorem exists_isomorphic_iff (hformed : archive.WellFormed) (hformed' : other.WellFormed) :
    (∃ f, Isomorphic f archive other) ↔ other.name = archive.name ∧ SameFiles archive other := by
  refine ⟨fun ⟨f, h⟩ => ⟨h.name_eq hformed hformed', h.sameFiles hformed hformed'⟩, ?_⟩
  rintro ⟨hname, h⟩
  have hids := h.map_id_descend? hformed hformed'
  refine ⟨archive.renumber other, h.bijOn_renumber hformed hformed', ?_, ?_⟩
  · have hroot : some other.root.label.id
        = some (archive.renumber other archive.root.label.id) := hids []
    rw [hformed.root_id, hformed'.root_id, Option.some.injEq] at hroot
    exact hroot.symm
  · rintro ⟨location, tree⟩ hmem ⟨location', image⟩ hmem' hid
    obtain rfl : location' = location := h.location_eq hformed hformed' hmem hmem' hid
    have hfound := (mem_places_iff hformed).mp hmem
    have hfound' := (mem_places_iff hformed').mp hmem'
    obtain ⟨image', himage, hfiles, -⟩ := h.exists_image hformed hmem
    obtain rfl : image = image' := Option.some.inj (hfound'.symm.trans himage)
    refine ⟨?_, fun name => ?_, fun entry => by rw [hfiles]⟩
    · rcases List.eq_nil_or_concat' location' with rfl | ⟨above, name, rfl⟩
      · obtain rfl := Option.some.inj hfound
        obtain rfl := Option.some.inj hfound'
        exact hname
      · exact (name_of_mem_places hformed' hmem').trans (name_of_mem_places hformed hmem).symm
    · rw [← map_id_descend?_append hfound', hids, ← map_id_descend?_append hfound,
        Option.map_map]
      rfl

/-! ## Writing -/

/-- What an archive is written as depends on its name, its settings and the files at each
    location. -/
theorem write_eq_of_sameFiles {streams : Streams} {deflate : Bytes → Bytes}
    (hformed : archive.WellFormed) (hformed' : other.WellFormed)
    (hname : other.name = archive.name) (hpolicy : other.policy = archive.policy)
    (h : SameFiles archive other) :
    other.write streams deflate = archive.write streams deflate := by
  have hmirrors : archive.Mirrors (fun _ entry => entry) other := by
    intro location
    simpa [filesAt] using h location
  have houtline : other.root.outline = archive.root.outline :=
    hmirrors.outline_root (fun _ _ => rfl) hname hformed hformed'
  have hrecords : (other.files.map fun file => other.fileRecord streams file deflate)
      = archive.files.map fun file => archive.fileRecord streams file deflate := by
    refine map_eq_of_forall₂ ?_ (hmirrors.forall₂_files hformed hformed' fun _ _ _ => rfl)
    rintro file copied ⟨-, hentry⟩
    rw [fileRecord, fileRecord, hentry, hpolicy]
  exact write_eq_of_outline_eq hformed hformed' houtline hrecords

end

end Archive

end HashArchive
