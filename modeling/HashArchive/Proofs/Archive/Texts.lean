/-
  HashArchive.Proofs.Archive.Texts

  Locations as texts, where every file is keyed by its name.  Neither names nor the root's
  own hold a slash, so a text falls apart into the names it was made of, and no two files
  share one.
-/
import Mathlib
import HashArchive.Proofs.Archive.Offsets
import HashArchive.Proofs.Disk.Lexical

namespace HashArchive.Archive

variable {archive : Archive}

theorem locationText_eq_intercalate (archive : Archive) (file : StoredFile) :
    archive.locationText file
      = "/".intercalate (archive.name :: file.place.location ++ [file.entry.key]) := by
  rw [String.intercalate_append_of_ne_nil (List.cons_ne_nil _ _) (List.cons_ne_nil _ _)]
  rfl

/-- Files that are keyed by their names are told apart by their locations as texts. -/
theorem eq_of_locationText_eq (h : archive.WellFormed)
    (hroot : ∀ c ∈ archive.name.toList, Path.isSeparator c = false)
    (hbare : ∀ file ∈ archive.files, file.entry.key = file.entry.name) {file other : StoredFile}
    (hfile : file ∈ archive.files) (hother : other ∈ archive.files)
    (htext : archive.locationText file = archive.locationText other) : file = other := by
  have hparts : ∀ {file : StoredFile}, file ∈ archive.files →
      ∀ part ∈ archive.name :: file.place.location ++ [file.entry.key], '/' ∉ part.toList := by
    intro file hmem part hpart
    obtain ⟨hplace, hentry⟩ := mem_files_iff.mp hmem
    rw [List.cons_append, List.mem_cons, List.mem_append, List.mem_singleton] at hpart
    rcases hpart with rfl | hpart | rfl
    · exact Path.slash_notMem_of_no_separator hroot
    · exact (plain_of_mem_location h hplace hpart).slash_notMem
    · rw [hbare file hmem]
      have hsound := h.sound _ (label_mem_of_mem_places hplace)
      exact (hsound.entries _ hentry).plain.slash_notMem
  rw [locationText_eq_intercalate, locationText_eq_intercalate] at htext
  have hsame := Folder.parts_intercalate (hparts hfile) (by simp)
  rw [htext, Folder.parts_intercalate (hparts hother) (by simp)] at hsame
  obtain ⟨hnames, hkeys⟩ := List.append_inj' hsame.symm rfl
  apply eq_of_address_eq h hfile hother
  rw [StoredFile.address, StoredFile.address, (List.cons.inj hnames).2, (List.cons.inj hkeys).1]

/-- Where locations as texts have keys of their own, the entries of every file that is keyed by
    its name lead to its own record. -/
theorem storedOffset_of_bare {streams : Streams} {deflate : Bytes → Bytes} {bytes : Bytes}
    {kept : List Kept} (h : archive.WellFormed)
    (hroot : ∀ c ∈ archive.name.toList, Path.isSeparator c = false)
    (hbare : ∀ file ∈ archive.files, file.entry.key = file.entry.name)
    (hkeys : ∀ file ∈ archive.files, ∀ other ∈ archive.files,
      archive.fileKey file = archive.fileKey other →
        archive.locationText file = archive.locationText other)
    (hwritten : archive.Written streams deflate bytes kept) {one : Kept} (hmem : one ∈ kept) :
    archive.storedOffset kept one.file = Int64.ofNat one.position := by
  obtain ⟨before, after, hkept⟩ := List.append_of_mem hmem
  rcases storedOffset_of_split archive hkept with ⟨hoffset, -⟩ | ⟨last, hlast, -, hkey⟩
  · exact hoffset
  · have hfile : ∀ other ∈ kept, other.file ∈ archive.files := fun other hother =>
      hwritten.files ▸ List.mem_map_of_mem hother
    have hlastMem : last ∈ kept := by
      rw [hkept]
      exact List.mem_append_right _ (List.mem_cons_of_mem _ hlast)
    have hsame := eq_of_locationText_eq h hroot hbare (hfile last hlastMem) (hfile one hmem)
      (hkeys _ (hfile last hlastMem) _ (hfile one hmem) hkey)
    -- A file has one record only.
    have hnodup := nodup_files h
    rw [← hwritten.files, hkept, List.map_append, List.map_cons, List.nodup_append,
      List.nodup_cons] at hnodup
    exact absurd (hsame ▸ List.mem_map_of_mem hlast) hnodup.2.1.1

end HashArchive.Archive
