/-
  HashArchive.Proofs.Arena.Nodes

  What one directory of an arena shows (`Node.view`), and what each change of it makes of that.
  The files come out of their table in the order of the keys, so they are listed as the
  directories of a tree list theirs, where each is kept under its own key (`Node.Keyed`).
-/
import Mathlib
import HashArchive.Arena.Edit
import HashArchive.Proofs.Archive.Views

namespace HashArchive.Arena

variable {ι : Type}

namespace Node

/-- What a directory shows. -/
def view [Handle ι] (node : Node ι) : DirectoryView where
  name := node.name
  parent? := node.parent?.map Handle.toNat
  subdirectory? name := node.subdirectories[name]?.map Handle.toNat
  files := node.fileList.map File.toEntry

/-- The files record the keys that they are under and the number of their directory. -/
def Keyed (node : Node ι) (id : ι) : Prop :=
  ∀ (key : String) (file : File ι), node.files[key]? = some file →
    file.key = key ∧ file.directory = id

theorem mem_fileList {node : Node ι} {file : File ι} :
    file ∈ node.fileList ↔ ∃ key : String, node.files[key]? = some file := by
  rw [fileList, List.mem_map]
  constructor
  · rintro ⟨⟨key, file⟩, hmem, rfl⟩
    exact ⟨key, Std.ExtTreeMap.mem_toList_iff_getElem?_eq_some.mp hmem⟩
  · rintro ⟨key, hfile⟩
    exact ⟨(key, file), Std.ExtTreeMap.mem_toList_iff_getElem?_eq_some.mpr hfile, rfl⟩

section Keyed

variable {node : Node ι} {id : ι} (h : node.Keyed id)
include h

theorem Keyed.getElem?_of_mem {file : File ι} (hmem : file ∈ node.fileList) :
    node.files[file.key]? = some file := by
  obtain ⟨key, hfile⟩ := mem_fileList.mp hmem
  rw [(h key file hfile).1]
  exact hfile

theorem Keyed.put {file : File ι} (hfile : file.directory = id) : (node.put file).Keyed id := by
  intro key other hother
  rw [Node.put, Std.ExtTreeMap.getElem?_insert] at hother
  split at hother
  · next heq =>
    obtain rfl := Option.some.inj hother
    exact ⟨Std.LawfulEqOrd.compare_eq_iff_eq.mp heq, hfile⟩
  · exact h key other hother

theorem Keyed.remove (key : String) : (node.remove key).Keyed id := by
  intro other file hfile
  rw [Node.remove, Std.ExtTreeMap.getElem?_erase] at hfile
  split at hfile
  · cases hfile
  · exact h other file hfile

theorem Keyed.updateSource (key : String) (f : Source → Source) :
    (node.updateSource key f).Keyed id := by
  intro other file hfile
  rw [Node.updateSource, Std.ExtTreeMap.getElem?_modify] at hfile
  split at hfile
  · next heq =>
    obtain ⟨old, hold, rfl⟩ := Option.map_eq_some_iff.mp hfile
    obtain rfl := Std.LawfulEqOrd.compare_eq_iff_eq.mp heq
    exact h key old hold
  · exact h other file hfile

end Keyed

variable [Handle ι]

/-! ## The files that are shown -/

section Files

variable {node : Node ι} {id : ι}

theorem mem_view_files (h : node.Keyed id) {entry : Entry} :
    entry ∈ node.view.files ↔
      ∃ file, node.files[entry.key]? = some file ∧ file.toEntry = entry := by
  rw [view, List.mem_map]
  constructor
  · rintro ⟨file, hmem, rfl⟩
    exact ⟨file, h.getElem?_of_mem hmem, rfl⟩
  · rintro ⟨file, hfile, hentry⟩
    exact ⟨file, mem_fileList.mpr ⟨_, hfile⟩, hentry⟩

/-- The files are shown in the order of their keys. -/
theorem ascending_view_files (h : node.Keyed id) : Entry.Ascending node.view.files := by
  rw [Entry.Ascending, view, fileList, List.map_map, List.pairwise_map]
  refine node.files.ordered_keys_toList.imp_of_mem fun {a b} ha hb hlt => ?_
  show a.2.key < b.2.key
  rw [(h _ _ (Std.ExtTreeMap.mem_toList_iff_getElem?_eq_some.mp ha)).1,
    (h _ _ (Std.ExtTreeMap.mem_toList_iff_getElem?_eq_some.mp hb)).1]
  exact compare_lt_iff_lt.mp hlt

/-- The file of a key is the one that is shown with it. -/
theorem map_toEntry_getElem? (h : node.Keyed id) (key : String) :
    node.files[key]?.map File.toEntry = node.view.files.find? (·.key == key) := by
  let directory : Directory := ⟨0, node.name, node.view.files⟩
  have hascending : Entry.Ascending directory.files := ascending_view_files h
  ext entry
  refine Iff.trans ?_ (Directory.file?_eq_some_iff hascending).symm
  rw [mem_view_files h, Option.map_eq_some_iff]
  constructor
  · rintro ⟨file, hfile, rfl⟩
    have hkey := (h key file hfile).1
    exact ⟨⟨file, hkey ▸ hfile, rfl⟩, hkey⟩
  · rintro ⟨⟨file, hfile, hentry⟩, rfl⟩
    exact ⟨file, hfile, hentry⟩

end Files

/-! ## What changes show -/

section Changes

variable {node : Node ι} {id : ι}

theorem view_link (name : String) (child : ι) (node : Node ι) :
    (node.link name child).view
      = { node.view with
          subdirectory? := fun first =>
            if first = name then some (Handle.toNat child)
            else node.view.subdirectory? first } := by
  have hchild : (node.link name child).view.subdirectory? = fun first =>
      if first = name then some (Handle.toNat child) else node.view.subdirectory? first := by
    funext first
    show (node.link name child).subdirectories[first]?.map Handle.toNat = _
    rw [link, Std.ExtTreeMap.getElem?_insert]
    by_cases hname : first = name
    · simp [hname]
    · rw [if_neg (by simpa using Ne.symm hname), if_neg hname]
      rfl
  rw [← hchild]
  rfl

theorem view_unlink (name : String) (node : Node ι) :
    (node.unlink name).view
      = { node.view with
          subdirectory? := fun first =>
            if first = name then none else node.view.subdirectory? first } := by
  have hchild : (node.unlink name).view.subdirectory? = fun first =>
      if first = name then none else node.view.subdirectory? first := by
    funext first
    show (node.unlink name).subdirectories[first]?.map Handle.toNat = _
    rw [unlink, Std.ExtTreeMap.getElem?_erase]
    by_cases hname : first = name
    · simp [hname]
    · rw [if_neg (by simpa using Ne.symm hname), if_neg hname]
      rfl
  rw [← hchild]
  rfl

theorem view_put (h : node.Keyed id) {file : File ι} (hfile : file.directory = id) :
    (node.put file).view = { node.view with files := file.toEntry.put node.view.files } := by
  have hkeyed := h.put hfile
  have hfiles : (node.put file).view.files = file.toEntry.put node.view.files := by
    refine Entry.eq_of_mem_iff (ascending_view_files hkeyed)
      (Entry.ascending_put _ (ascending_view_files h)) fun entry => ?_
    rw [mem_view_files hkeyed, Entry.mem_put (ascending_view_files h), mem_view_files h, Node.put,
      Std.ExtTreeMap.getElem?_insert]
    by_cases hkey : file.key = entry.key
    · rw [if_pos (Std.LawfulEqOrd.compare_eq_iff_eq.mpr hkey)]
      simp [hkey, eq_comm]
    · rw [if_neg (mt Std.LawfulEqOrd.compare_eq_iff_eq.mp hkey)]
      have hne : entry ≠ file.toEntry := fun heq => hkey (congrArg Entry.key heq).symm
      simp [hne, Ne.symm hkey]
  rw [← hfiles]
  rfl

theorem view_remove (h : node.Keyed id) (key : String) :
    (node.remove key).view
      = { node.view with files := node.view.files.filter (·.key != key) } := by
  have hkeyed := h.remove key
  have hfiles : (node.remove key).view.files = node.view.files.filter (·.key != key) := by
    refine Entry.eq_of_mem_iff (ascending_view_files hkeyed)
      (List.Pairwise.sublist List.filter_sublist (ascending_view_files h)) fun entry => ?_
    rw [mem_view_files hkeyed, List.mem_filter, mem_view_files h, Node.remove,
      Std.ExtTreeMap.getElem?_erase]
    by_cases hkey : key = entry.key
    · simp [hkey]
    · rw [if_neg (mt Std.LawfulEqOrd.compare_eq_iff_eq.mp hkey)]
      simp [Ne.symm hkey]
  rw [← hfiles]
  rfl

theorem view_updateSource (h : node.Keyed id) (key : String) (f : Source → Source) :
    (node.updateSource key f).view
      = { node.view with
          files := node.view.files.map fun entry =>
            if entry.key = key then { entry with source := f entry.source } else entry } := by
  have hkeyed := h.updateSource key f
  have hascending := ascending_view_files h
  have hfiles : (node.updateSource key f).view.files = node.view.files.map fun entry =>
      if entry.key = key then { entry with source := f entry.source } else entry := by
    have hmapped : Entry.Ascending (node.view.files.map fun entry =>
        if entry.key = key then { entry with source := f entry.source } else entry) := by
      refine List.pairwise_map.mpr (hascending.imp fun {a b} hlt => ?_)
      split <;> split <;> exact hlt
    refine Entry.eq_of_mem_iff (ascending_view_files hkeyed) hmapped fun entry => ?_
    rw [mem_view_files hkeyed, List.mem_map, Node.updateSource, Std.ExtTreeMap.getElem?_modify]
    simp only [mem_view_files h]
    by_cases hkey : key = entry.key
    · rw [if_pos (Std.LawfulEqOrd.compare_eq_iff_eq.mpr hkey)]
      constructor
      · rintro ⟨file, hfile, rfl⟩
        obtain ⟨old, hold, rfl⟩ := Option.map_eq_some_iff.mp hfile
        have hkey' : old.key = key := hkey.symm
        exact ⟨old.toEntry, ⟨old, hkey' ▸ hold, rfl⟩, if_pos hkey'⟩
      · rintro ⟨old, ⟨file, hfile, rfl⟩, rfl⟩
        split at hkey
        · next heq =>
          rw [if_pos heq]
          exact ⟨_, by rw [← heq, hfile]; rfl, rfl⟩
        · next hne => exact absurd hkey.symm hne
    · rw [if_neg (mt Std.LawfulEqOrd.compare_eq_iff_eq.mp hkey)]
      constructor
      · rintro ⟨file, hfile, rfl⟩
        exact ⟨file.toEntry, ⟨file, hfile, rfl⟩, if_neg (Ne.symm hkey)⟩
      · rintro ⟨old, ⟨file, hfile, rfl⟩, rfl⟩
        split at hkey
        · next heq => exact absurd heq.symm hkey
        · next hne =>
          rw [if_neg hne]
          exact ⟨file, hfile, rfl⟩
  rw [← hfiles]
  rfl

end Changes

end Node

end HashArchive.Arena
