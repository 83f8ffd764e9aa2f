/-
  HashArchive.Proofs.Archive.Losses

  How many directories and files come back when a written archive is read.  Never more than
  were written, and all of them if and only if in each directory the names of the directories
  and those of the files have different keys (`counts_of_read`).  Keys do not look at case, so
  names that differ only in case make a written archive lose directories and files without an
  error (`lossy_twins`).
-/
import Mathlib
import HashArchive.Proofs.Archive.Acceptance
import HashArchive.Proofs.Archive.RoundTrip

namespace HashArchive

/-- No two subdirectories have names of one key. -/
def Place.DirectoriesApart (place : Place) : Prop :=
  (place.tree.below.trees.map fun tree => Name.key .utf16 tree.label.name).Nodup

/-- No two files have names of one key. -/
def Place.FilesApart (place : Place) : Prop :=
  (place.tree.label.files.map fun entry => Name.key .utf16 entry.name).Nodup

instance Place.decidableDirectoriesApart (place : Place) : Decidable place.DirectoriesApart :=
  inferInstanceAs (Decidable (List.Nodup _))

instance Place.decidableFilesApart (place : Place) : Decidable place.FilesApart :=
  inferInstanceAs (Decidable (List.Nodup _))

/-- A list without duplicates is as long as one that holds it if and only if that has no
    duplicates and holds nothing else. -/
theorem length_eq_iff_of_nodup {α : Type} {list others : List α} (hnodup : list.Nodup)
    (hsub : list ⊆ others) :
    list.length ≤ others.length ∧
      (list.length = others.length ↔ others.Nodup ∧ others ⊆ list) := by
  have hsubperm := List.subperm_of_subset hnodup hsub
  refine ⟨hsubperm.length_le, fun hlength => ?_, ?_⟩
  · have hperm := hsubperm.perm_of_length_le (le_of_eq hlength.symm)
    exact ⟨hperm.nodup_iff.mp hnodup, hperm.symm.subset⟩
  · rintro ⟨hothers, hback⟩
    exact le_antisymm hsubperm.length_le (List.subperm_of_subset hothers hback).length_le

/-! ## Keys in the index -/

namespace Index.Plan

variable {plan : Plan} {root : Tree Directory}

/-- The records lead to different keys where the subdirectories have names of different keys. -/
theorem directoriesApart_iff (hencoding : plan.encoding = .utf16) :
    (∀ record ∈ (plan.index root).labels, (record.directories.map (·.key)).Nodup) ↔
      ∀ place ∈ root.placesAt [], place.DirectoriesApart := by
  refine (plan.forall_mem_labels_iff (f := fun record => record.directories.map (·.key))
    (g := fun place => (plan.byKey place.tree.below).map fun tree =>
      Name.key plan.encoding tree.label.name)
    List.Nodup (fun _ tree => plan.map_key_directories_subtree _ _ tree) root).trans ?_
  refine forall₂_congr fun place _ => ?_
  rw [hencoding]
  exact ((plan.byKey_perm place.tree.below).map _).nodup_iff

/-- The records hold files of different keys where the files have names of different keys. -/
theorem filesApart_iff (hencoding : plan.encoding = .utf16) :
    (∀ record ∈ (plan.index root).labels, (record.files.map (·.key)).Nodup) ↔
      ∀ place ∈ root.placesAt [], place.FilesApart := by
  refine (plan.forall_mem_labels_iff (f := fun record => record.files.map (·.key))
    (g := fun place => (plan.entriesAt place.location place.tree.label).map (·.key))
    List.Nodup (fun _ _ => rfl) root).trans ?_
  refine forall₂_congr fun place _ => ?_
  rw [entriesAt_eq, List.map_map]
  have hkey : (fun entry : IndexEntry => entry.key) ∘ plan.entryAt place.location
      = fun entry => Name.key .utf16 entry.name := by
    rw [← hencoding]
    rfl
  rw [hkey]
  exact ((plan.fileOrder_perm place.location place.tree.label).map _).nodup_iff

end Index.Plan

namespace Archive

section

variable {archive copy : Archive} {stream : StreamId} {kept : List Kept}

/-! ## Counting by locations and addresses -/

theorem mem_addresses_iff (h : archive.WellFormed) {address : FileAddress} :
    address ∈ archive.files.map (·.address) ↔ archive.Occupied address := by
  rw [List.mem_map]
  constructor
  · rintro ⟨file, hfile, rfl⟩
    obtain ⟨hplace, hentry⟩ := mem_files_iff.mp hfile
    refine ⟨file.place.tree.label.files, ?_, List.mem_map_of_mem hentry⟩
    have hfound := (mem_places_iff h).mp hplace
    rw [filesAt, directory?, Tree.directory?]
    exact congrArg (Option.map (·.files) ∘ Option.map (·.label)) hfound
  · rintro ⟨files, hfiles, hkey⟩
    obtain ⟨directory, hdirectory, rfl⟩ := Option.map_eq_some_iff.mp hfiles
    obtain ⟨tree, htree, rfl⟩ := Option.map_eq_some_iff.mp hdirectory
    obtain ⟨entry, hentry, hsame⟩ := List.mem_map.mp hkey
    refine ⟨⟨⟨address.location, tree⟩, entry⟩, ?_, ?_⟩
    · exact mem_files_iff.mpr ⟨(mem_places_iff h).mpr htree, hentry⟩
    · rw [StoredFile.address, hsame]

/-! ## The copy -/

/-- All directories come back if and only if in each the names of the subdirectories have
    different keys. -/
theorem length_places_of_visited (h : archive.WellFormed) (hcopy : copy.WellFormed)
    (hlive : ∀ location, copy.Live location ↔ location ∈ visited (archive.originOf stream).names
      ((archive.planOf kept).index archive.root) []) :
    copy.places.length ≤ archive.places.length ∧
      (copy.places.length = archive.places.length ↔
        ∀ place ∈ archive.places, place.DirectoriesApart) := by
  set names := (archive.originOf stream).names
  set index := (archive.planOf kept).index archive.root
  have hkeyed : index.Keyed := (archive.planOf kept).keyed_subtree [] [] archive.root
  have hsub : copy.places.map (·.location) ⊆ index.locations names [] := fun location hmem =>
    visited_subset names index [] ((hlive location).mp ((mem_locations_iff hcopy).mp hmem))
  have hsize : (index.locations names []).length = archive.places.length := by
    rw [Index.length_locations]
    exact congrArg Prod.fst ((archive.planOf kept).totals_index archive.root)
  -- The index has one location for each directory, and the copy has some of them.
  obtain ⟨hle, heq⟩ := length_eq_iff_of_nodup (nodup_locations hcopy) hsub
  rw [List.length_map, hsize] at hle heq
  have hapart : (index.locations names []).Nodup ↔
      ∀ record ∈ index.labels, (record.directories.map (·.key)).Nodup :=
    Index.nodup_locations_iff hkeyed fun record hmem => spells_of_mem_below h stream kept hmem
  have hback : (index.locations names []).Nodup →
      index.locations names [] ⊆ copy.places.map (·.location) := by
    intro hnodup location hmem
    rw [mem_locations_iff hcopy, hlive]
    exact subset_visited hkeyed (hapart.mp hnodup) hmem
  refine ⟨hle, heq.trans ((and_iff_left_of_imp hback).trans ?_)⟩
  exact hapart.trans (Index.Plan.directoriesApart_iff rfl)

/-- Of the directories that come back all files do if and only if in each directory the names of
    the files have different keys. -/
theorem length_files_of_visited (h : archive.WellFormed) (hcopy : copy.WellFormed)
    (hoccupied : ∀ address, copy.Occupied address ↔
      address ∈ visitedFiles (archive.originOf stream).names
        ((archive.planOf kept).index archive.root) []) :
    copy.files.length ≤ archive.files.length ∧
      ((∀ place ∈ archive.places, place.DirectoriesApart) →
        (copy.files.length = archive.files.length ↔
          ∀ place ∈ archive.places, place.FilesApart)) := by
  set names := (archive.originOf stream).names
  set index := (archive.planOf kept).index archive.root
  have hkeyed : index.Keyed := (archive.planOf kept).keyed_subtree [] [] archive.root
  have hsub : copy.files.map (·.address) ⊆ index.addresses names [] := fun address hmem =>
    visitedFiles_subset names index []
      ((hoccupied address).mp ((mem_addresses_iff hcopy).mp hmem))
  have hsize : (index.addresses names []).length = archive.files.length := by
    rw [Index.length_addresses, length_files]
    exact congrArg Prod.snd ((archive.planOf kept).totals_index archive.root)
  obtain ⟨hle, heq⟩ := length_eq_iff_of_nodup (nodup_addresses hcopy) hsub
  rw [List.length_map, hsize] at hle heq
  -- Files in a directory that is never gone to are lost for that, so the directories have to
  -- come back before the names of the files decide.
  refine ⟨hle, fun hdirectories => ?_⟩
  have hapart : ∀ record ∈ index.labels, (record.directories.map (·.key)).Nodup :=
    (Index.Plan.directoriesApart_iff rfl).mpr hdirectories
  have hback : index.addresses names [] ⊆ copy.files.map (·.address) := by
    intro address hmem
    rw [mem_addresses_iff hcopy, hoccupied]
    exact subset_visitedFiles hkeyed hapart hmem
  have hlocations : (index.locations names []).Nodup :=
    (Index.nodup_locations_iff hkeyed fun record hmem =>
      spells_of_mem_below h stream kept hmem).mpr hapart
  have hfiles := Index.nodup_addresses_iff hlocations fun record hmem entry hentry =>
    spells_of_mem_entries h stream kept hmem hentry
  exact heq.trans ((and_iff_left hback).trans (hfiles.trans (Index.Plan.filesApart_iff rfl)))

end

/-- What is read of a written archive holds what the reader goes to and no more. -/
theorem exists_visited_of_read {archive copy : Archive} {streams : Streams}
    {deflate : Bytes → Bytes} {bytes : Bytes} {stream : StreamId} (h : archive.WellFormed)
    (hsized : archive.Sized) (hlossless : Deflate.Lossless deflate)
    (hwrite : archive.write streams deflate = .ok bytes) (hfits : bytes.length < 2 ^ 63)
    (hread : read stream bytes = .ok copy) :
    ∃ kept, (∀ location, copy.Live location ↔
        location ∈ visited (archive.originOf stream).names
          ((archive.planOf kept).index archive.root) []) ∧
      ∀ address, copy.Occupied address ↔
        address ∈ visitedFiles (archive.originOf stream).names
          ((archive.planOf kept).index archive.root) [] := by
  have hshallow := shallow_of_read h hsized hlossless hwrite hfits hread
  obtain ⟨kept, payload, hkeep, hpayload, rfl⟩ := (write_eq_ok_iff h).mp hwrite
  obtain ⟨other, hother, hvisits⟩ := exists_copy_of_shallow h hsized hshallow hlossless hpayload
    (written_of_keep h payload hkeep) hfits stream
  obtain rfl := Except.ok.inj (hread.symm.trans hother)
  exact ⟨kept, hvisits⟩

/-! ## The main statement -/

/-- When an archive has been written and is read, no more directories and files come back than
    were written.  All directories do if and only if in each of them the names of the
    subdirectories have different keys, and all files as well if and only if those of the files
    have, too. -/
theorem counts_of_read {archive copy : Archive} {streams : Streams} {deflate : Bytes → Bytes}
    {bytes : Bytes} {stream : StreamId} (h : Reachable archive) (hsized : archive.Sized)
    (hlossless : Deflate.Lossless deflate) (hwrite : archive.write streams deflate = .ok bytes)
    (hfits : bytes.length < 2 ^ 63) (hread : read stream bytes = .ok copy) :
    copy.places.length ≤ archive.places.length ∧ copy.files.length ≤ archive.files.length ∧
      (copy.places.length = archive.places.length ↔
        ∀ place ∈ archive.places, place.DirectoriesApart) ∧
      (copy.places.length = archive.places.length ∧
          copy.files.length = archive.files.length ↔
        ∀ place ∈ archive.places, place.DirectoriesApart ∧ place.FilesApart) := by
  obtain ⟨kept, hlive, hoccupied⟩ :=
    exists_visited_of_read h.wellFormed hsized hlossless hwrite hfits hread
  have hcopy : copy.WellFormed := (Reachable.read hread).wellFormed
  obtain ⟨hplaces, hplacesEq⟩ := length_places_of_visited h.wellFormed hcopy hlive
  obtain ⟨hfiles, hfilesEq⟩ := length_files_of_visited h.wellFormed hcopy hoccupied
  refine ⟨hplaces, hfiles, hplacesEq, ?_⟩
  rw [hplacesEq, forall₂_and]
  exact and_congr_right hfilesEq

/-- All of an archive comes back whose names have different keys. -/
theorem counts_of_read_branched :
    ∃ bytes copy, branched.write noStreams = .ok bytes ∧ read 0 bytes = .ok copy ∧
      copy.places.length = branched.places.length ∧
      copy.files.length = branched.files.length := by
  obtain ⟨bytes, hwrite, hfits⟩ := exists_write_branched
  obtain ⟨copy, hread⟩ := exists_read_of_shallow reachable_branched.wellFormed
    portable_branched.sized portable_branched.shallow Deflate.lossless_store hwrite hfits 0
  obtain ⟨-, -, -, hcounts⟩ := counts_of_read reachable_branched portable_branched.sized
    Deflate.lossless_store hwrite hfits hread
  exact ⟨bytes, copy, hwrite, hread, hcounts.mpr (by decide +kernel)⟩

/-- Two files in directories whose names differ only in case: the archive is written and read
    without an error, and a directory is lost. -/
theorem lossy_twins :
    (new "root").addFile rootId "A/x" (.ofBytes [0x6F]) = .ok (firstTwin, ⟨["A"], "x"⟩) ∧
      firstTwin.addFile rootId "a/y" (.ofBytes [0x74]) = .ok (twins, ⟨["a"], "y"⟩) ∧
      twins.policy.keepDuplicates = false ∧ twins.Shallow ∧
      ∃ bytes copy, twins.write noStreams = .ok bytes ∧ read 0 bytes = .ok copy ∧
        copy.places.length < twins.places.length := by
  have hshallow : twins.Shallow := by decide +kernel
  have hformed := reachable_twins.wellFormed
  obtain ⟨bytes, hwrite, hfits⟩ := exists_write_twins
  obtain ⟨copy, hread⟩ :=
    exists_read_of_shallow hformed sized_twins hshallow Deflate.lossless_store hwrite hfits 0
  obtain ⟨kept, hlive, -⟩ :=
    exists_visited_of_read hformed sized_twins Deflate.lossless_store hwrite hfits hread
  obtain ⟨hle, heq⟩ := length_places_of_visited hformed (Reachable.read hread).wellFormed hlive
  have hclash : ¬ ∀ place ∈ twins.places, place.DirectoriesApart := by decide +kernel
  exact ⟨addFile_firstTwin, addFile_twins, rfl, hshallow, bytes, copy, hwrite, hread,
    lt_of_le_of_ne hle (mt heq.mp hclash)⟩

end Archive

end HashArchive
