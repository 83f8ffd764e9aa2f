/-
  HashArchive.Proofs.Archive.WellFormed

  The invariant of archives: directories have numbers of their own, siblings stand in
  the order of their names, and all names but the root's are plain.  Every change keeps
  it (`wellFormed_of_change`), so every sequence of changes does.
-/
import Mathlib
import HashArchive.Proofs.Archive.Change

namespace HashArchive

namespace Forest

theorem labels_remove_sublist (name : String) (forest : Forest Directory) :
    (forest.remove name).labels.Sublist forest.labels := by
  induction forest with
  | nil => exact List.Sublist.refl _
  | cons directory below rest _ ih =>
    rw [remove]
    split
    · exact (List.sublist_append_right _ _).cons directory
    · exact (ih.append_left below.labels).cons_cons directory

end Forest

namespace Tree

/-- What the directories are after one of them has changed: the old ones, or that one. -/
theorem mem_labels_update_updateRoot {tree : Tree Directory} {location : Location}
    {g : Directory → Directory} {directory : Directory}
    (h : directory ∈ (tree.update (updateRoot g) location).labels) :
    directory ∈ tree.labels ∨ ∃ old ∈ tree.labels, directory = g old := by
  cases hfound : tree.descend? location with
  | none =>
    rw [update_of_descend?_eq_none hfound] at h
    exact Or.inl h
  | some found =>
    -- In preorder the change replaces one label between the others.
    obtain ⟨before, after, hlabels, hupdate⟩ := labels_update hfound
    rw [hupdate] at h
    have hmem : ∀ old, old ∈ before ∨ old = found.label ∨ old ∈ found.below.labels ∨ old ∈ after →
        old ∈ tree.labels := by
      intro old hold
      rw [hlabels]
      simpa [labels, or_assoc] using hold
    simp only [labels, updateRoot, List.mem_append, List.mem_cons, or_assoc] at h
    rcases h with h | rfl | h | h
    · exact Or.inl (hmem _ (Or.inl h))
    · exact Or.inr ⟨found.label, hmem _ (Or.inr (Or.inl rfl)), rfl⟩
    · exact Or.inl (hmem _ (Or.inr (Or.inr (Or.inl h))))
    · exact Or.inl (hmem _ (Or.inr (Or.inr (Or.inr h))))

theorem map_labels_update_updateRoot {β : Type} (tree : Tree Directory) (location : Location)
    {g : Directory → Directory} {f : Directory → β}
    (hg : ∀ directory, f (g directory) = f directory) :
    (tree.update (updateRoot g) location).labels.map f = tree.labels.map f := by
  cases hfound : tree.descend? location with
  | none => rw [update_of_descend?_eq_none hfound]
  | some found =>
    obtain ⟨before, after, hlabels, hupdate⟩ := labels_update hfound
    rw [hupdate, hlabels]
    simp [labels, updateRoot, hg]

theorem labels_update_addBelow {tree : Tree Directory} {location : Location}
    (directory : Directory) (h : (tree.descend? location).isSome) :
    (tree.update (addBelow directory) location).labels.Perm (directory :: tree.labels) := by
  obtain ⟨found, hfound⟩ := Option.isSome_iff_exists.mp h
  obtain ⟨before, after, hlabels, hupdate⟩ := labels_update hfound
  have hinsert : (addBelow directory found).labels.Perm (directory :: found.labels) :=
    ((Forest.labels_insert_perm Directory.before ⟨directory, .nil⟩ found.below).cons
      found.label).trans (List.Perm.swap _ _ _)
  have hfront : (before ++ (directory :: found.labels) ++ after).Perm
      (directory :: (before ++ found.labels ++ after)) := by
    rw [List.append_assoc, List.append_assoc]
    exact List.perm_middle
  rw [hupdate, hlabels]
  exact ((hinsert.append_left before).append_right after).trans hfront

theorem labels_update_removeBelow (tree : Tree Directory) (location : Location) (name : String) :
    (tree.update (removeBelow name) location).labels.Sublist tree.labels := by
  cases hfound : tree.descend? location with
  | none => rw [update_of_descend?_eq_none hfound]
  | some found =>
    obtain ⟨before, after, hlabels, hupdate⟩ := labels_update hfound
    rw [hupdate, hlabels]
    exact (((Forest.labels_remove_sublist name found.below).cons_cons found.label).append_left
      before).append_right after

end Tree

namespace Archive

/-- The invariant of archives. -/
structure WellFormed (archive : Archive) : Prop where
  root_id : archive.root.label.id = rootId
  nodup : (archive.root.labels.map (·.id)).Nodup
  bounded : ∀ directory ∈ archive.root.labels, directory.id < archive.nextId
  ordered : archive.root.below.Ordered
  plain : ∀ directory ∈ archive.root.labels, directory.id ≠ rootId → Path.Plain directory.name
  sound : ∀ directory ∈ archive.root.labels, directory.Sound

theorem wellFormed_new (name : String) : (new name).WellFormed where
  root_id := rfl
  nodup := by simp [new, Tree.labels, Forest.labels]
  bounded := by simp [new, Tree.labels, Forest.labels, rootId]
  ordered := trivial
  plain := by simp [new, Tree.labels, Forest.labels]
  sound := by
    intro directory hmem
    obtain rfl : directory = { id := rootId, name } := by
      simpa [new, Tree.labels, Forest.labels] using hmem
    exact ⟨List.Pairwise.nil, by simp⟩

/-- The root's own name is no part of the invariant. -/
theorem wellFormed_setName {archive : Archive} (h : archive.WellFormed) (name : String) :
    (archive.setName name).WellFormed where
  root_id := h.root_id
  nodup := h.nodup
  bounded := by
    intro directory hmem
    rcases List.mem_cons.mp hmem with rfl | hmem
    · exact h.bounded archive.root.label List.mem_cons_self
    · exact h.bounded directory (List.mem_cons_of_mem _ hmem)
  ordered := h.ordered
  plain := by
    intro directory hmem hid
    rcases List.mem_cons.mp hmem with rfl | hmem
    · exact absurd h.root_id hid
    · exact h.plain directory (List.mem_cons_of_mem _ hmem) hid
  sound := by
    intro directory hmem
    rcases List.mem_cons.mp hmem with rfl | hmem
    · have hroot := h.sound archive.root.label List.mem_cons_self
      exact ⟨hroot.ascending, hroot.entries⟩
    · exact h.sound directory (List.mem_cons_of_mem _ hmem)

/-- A change of the files of one directory keeps the invariant when it keeps the directory's
    number, name and soundness. -/
theorem wellFormed_updateRoot {archive : Archive} (h : archive.WellFormed)
    (location : Location) {g : Directory → Directory}
    (hid : ∀ directory, (g directory).id = directory.id)
    (hname : ∀ directory, (g directory).name = directory.name)
    (hsound : ∀ directory : Directory, directory.Sound → (g directory).Sound) :
    ({ archive with root := archive.root.update (Tree.updateRoot g) location } : Archive).WellFormed
    where
  root_id := by
    have hroot := Tree.label_update (f := Tree.updateRoot g) (g := (·.id))
      (fun tree => hid tree.label) archive.root location
    exact hroot.trans h.root_id
  nodup := by
    rw [Tree.map_labels_update_updateRoot archive.root location (f := (·.id)) hid]
    exact h.nodup
  bounded := by
    intro directory hmem
    rcases Tree.mem_labels_update_updateRoot hmem with hmem | ⟨old, hold, rfl⟩
    · exact h.bounded directory hmem
    · rw [hid]
      exact h.bounded old hold
  ordered := by
    refine Tree.ordered_update (f := Tree.updateRoot g) (fun tree => hname tree.label) ?_ h.ordered
    exact fun found _ hfound => hfound
  plain := by
    intro directory hmem hne
    rcases Tree.mem_labels_update_updateRoot hmem with hmem | ⟨old, hold, rfl⟩
    · exact h.plain directory hmem hne
    · rw [hname]
      exact h.plain old hold (hid old ▸ hne)
  sound := by
    intro directory hmem
    rcases Tree.mem_labels_update_updateRoot hmem with hmem | ⟨old, hold, rfl⟩
    · exact h.sound directory hmem
    · exact hsound old (h.sound old hold)

theorem wellFormed_addDirectory {archive : Archive} (h : archive.WellFormed)
    {location : Location} {name : String} (hlive : archive.Live location)
    (hmissing : ¬ archive.Live (location ++ [name])) (hplain : Path.Plain name) :
    (archive.addDirectory location name).WellFormed := by
  have hperm := Tree.labels_update_addBelow { id := archive.nextId, name } hlive
  have hmem : ∀ {directory}, directory ∈ (archive.addDirectory location name).root.labels →
      directory = { id := archive.nextId, name } ∨ directory ∈ archive.root.labels :=
    fun hmem => List.mem_cons.mp (hperm.mem_iff.mp hmem)
  constructor
  · have hroot := Tree.label_update (f := Tree.addBelow { id := archive.nextId, name })
      (g := (·.id)) (fun _ => rfl) archive.root location
    exact hroot.trans h.root_id
  · apply ((hperm.map (·.id)).nodup_iff).mpr
    rw [List.map_cons, List.nodup_cons]
    refine ⟨?_, h.nodup⟩
    intro hused
    -- The number of the new directory is above all that are in use.
    obtain ⟨directory, hdirectory, hid⟩ := List.mem_map.mp hused
    exact absurd (h.bounded directory hdirectory) (by simp [hid])
  · intro directory hdirectory
    show directory.id < archive.nextId + 1
    rcases hmem hdirectory with rfl | hold
    · exact Nat.lt_succ_self _
    · exact Nat.lt_succ_of_lt (h.bounded directory hold)
  · refine Tree.ordered_update (f := Tree.addBelow { id := archive.nextId, name }) (fun _ => rfl)
      ?_ h.ordered
    intro found hfound hordered
    refine Forest.ordered_insert ?_ trivial hordered
    exact not_mem_names_of_not_live hfound hmissing
  · intro directory hdirectory hid
    rcases hmem hdirectory with rfl | hold
    · exact hplain
    · exact h.plain directory hold hid
  · intro directory hdirectory
    rcases hmem hdirectory with rfl | hold
    · exact ⟨List.Pairwise.nil, by simp⟩
    · exact h.sound directory hold

theorem wellFormed_removeDirectory {archive : Archive} (h : archive.WellFormed)
    (location : Location) (name : String) :
    ({ archive with
      root := archive.root.update (Tree.removeBelow name) location } : Archive).WellFormed := by
  have hsublist := Tree.labels_update_removeBelow archive.root location name
  constructor
  · have hroot := Tree.label_update (f := Tree.removeBelow name) (g := (·.id)) (fun _ => rfl)
      archive.root location
    exact hroot.trans h.root_id
  · exact h.nodup.sublist (hsublist.map _)
  · exact fun directory hmem => h.bounded directory (hsublist.subset hmem)
  · refine Tree.ordered_update (f := Tree.removeBelow name) (fun _ => rfl) ?_ h.ordered
    exact fun found _ hordered => Forest.ordered_remove hordered name
  · exact fun directory hmem => h.plain directory (hsublist.subset hmem)
  · exact fun directory hmem => h.sound directory (hsublist.subset hmem)

/-- Every change keeps the invariant. -/
theorem wellFormed_of_change {archive after : Archive} (hchange : Change archive after)
    (h : archive.WellFormed) : after.WellFormed := by
  cases hchange with
  | rename name => exact wellFormed_setName h name
  | settings policy => exact ⟨h.root_id, h.nodup, h.bounded, h.ordered, h.plain, h.sound⟩
  | addDirectory live missing plain => exact wellFormed_addDirectory h live missing plain
  | putFile live sound =>
    exact wellFormed_updateRoot h _ (fun _ => rfl) (fun _ => rfl) fun _ hdirectory =>
      Directory.sound_put hdirectory sound
  | removeFile location key =>
    exact wellFormed_updateRoot h _ (fun _ => rfl) (fun _ => rfl) fun _ hdirectory =>
      Directory.sound_remove hdirectory key
  | removeDirectory location name => exact wellFormed_removeDirectory h location name
  | updateSource address f =>
    exact wellFormed_updateRoot h _ (fun _ => rfl) (fun _ => rfl) fun _ hdirectory =>
      Directory.sound_updateSource hdirectory address.key f

/-- Every sequence of changes keeps the invariant. -/
theorem Evolves.wellFormed {archive after : Archive} (hevolves : Evolves archive after)
    (h : archive.WellFormed) : after.WellFormed := by
  induction hevolves with
  | refl => exact h
  | tail _ hchange ih => exact wellFormed_of_change hchange ih

end Archive

end HashArchive
