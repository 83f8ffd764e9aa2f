/-
  HashArchive.Proofs.Archive.Change

  What a single change of an archive can be.  Every operation is a sequence of changes
  (`Evolves`), so what each change keeps every operation keeps.
-/
import Mathlib
import HashArchive.Archive.Merge
import HashArchive.Archive.Pack
import HashArchive.Proofs.Directory.Address
import HashArchive.Proofs.Directory.Files
import HashArchive.Proofs.Path.Plain

namespace HashArchive.Archive

/-- What the directory at a location has of its own. -/
def directory? (archive : Archive) (location : Location) : Option Directory :=
  archive.root.directory? location

/-- There is a directory at the location. -/
def Live (archive : Archive) (location : Location) : Prop := (archive.descend? location).isSome

/-- One archive becomes another by a single change. -/
inductive Change : Archive → Archive → Prop
  | rename (archive : Archive) (name : String) : Change archive (archive.setName name)
  | settings (archive : Archive) (policy : Policy) : Change archive { archive with policy }
  | addDirectory {archive : Archive} {location : Location} {name : String}
      (live : archive.Live location) (missing : ¬ archive.Live (location ++ [name]))
      (plain : Path.Plain name) : Change archive (archive.addDirectory location name)
  | putFile {archive : Archive} {location : Location} {entry : Entry}
      (live : archive.Live location) (sound : entry.Sound) :
      Change archive (archive.putFile location entry)
  | removeFile (archive : Archive) (location : Location) (key : String) :
      Change archive
        { archive with root := archive.root.update (Tree.updateRoot (·.remove key)) location }
  | removeDirectory (archive : Archive) (location : Location) (name : String) :
      Change archive { archive with root := archive.root.update (Tree.removeBelow name) location }
  | updateSource (archive : Archive) (address : FileAddress) (f : Source → Source) :
      Change archive (archive.updateSource address f)

/-- One archive becomes another by any number of changes. -/
def Evolves : Archive → Archive → Prop := Relation.ReflTransGen Change

theorem Change.evolves {archive after : Archive} (h : Change archive after) :
    Evolves archive after := Relation.ReflTransGen.single h

theorem Evolves.refl (archive : Archive) : Evolves archive archive := Relation.ReflTransGen.refl

theorem Evolves.trans {a b c : Archive} (hab : Evolves a b) (hbc : Evolves b c) : Evolves a c :=
  Relation.ReflTransGen.trans hab hbc

/-! ## What a change is seen as -/

theorem live_iff {archive : Archive} {location : Location} :
    archive.Live location ↔ (archive.directory? location).isSome := by
  simp [Live, directory?, Tree.directory?, descend?]

theorem live_nil (archive : Archive) : archive.Live [] := rfl

theorem live_dropLast {archive : Archive} {location : Location} (h : archive.Live location) :
    archive.Live location.dropLast := by
  rcases List.eq_nil_or_concat' location with rfl | ⟨above, name, rfl⟩
  · exact h
  · rw [List.dropLast_concat]
    exact Tree.isSome_of_descend?_append h

/-- A name that leads to no directory is the name of none there. -/
theorem not_mem_names_of_not_live {archive : Archive} {location : Location} {name : String}
    {found : Tree Directory} (hfound : archive.root.descend? location = some found)
    (hmissing : ¬ archive.Live (location ++ [name])) : name ∉ found.below.names := by
  rw [Live, descend?] at hmissing
  rw [Tree.descend?_append, hfound, Option.bind_some, Tree.descend?_singleton] at hmissing
  rw [← Forest.child?_eq_none_iff]
  simpa using hmissing

/-- A change of one directory's own part is seen at that directory only. -/
theorem directory?_updateRoot {archive : Archive} {g : Directory → Directory}
    (hg : ∀ directory, (g directory).name = directory.name) (location other : Location) :
    (archive.root.update (Tree.updateRoot g) location).directory? other
      = if other = location then (archive.directory? location).map g
        else archive.directory? other := by
  -- Only what lies below the place of the change can look different.
  by_cases hpre : location <+: other
  · obtain ⟨more, rfl⟩ := hpre
    have hself := Tree.descend?_update_append (f := Tree.updateRoot g) (fun tree => hg tree.label)
      archive.root location more
    unfold Tree.directory? directory? Tree.directory?
    rw [hself, Tree.descend?_append]
    cases archive.root.descend? location with
    | none => simp
    | some found =>
      cases more with
      | nil => simp [Tree.updateRoot]
      | cons name names => simp [Tree.updateRoot, Tree.descend?_cons]
  · have hne : other ≠ location := by
      rintro rfl
      exact hpre (List.prefix_refl _)
    rw [if_neg hne]
    exact Tree.directory?_update_of_not_prefix (f := Tree.updateRoot g) (fun tree => hg tree.label)
      archive.root hpre

theorem directory?_putFile (archive : Archive) (location other : Location) (entry : Entry) :
    (archive.putFile location entry).directory? other
      = if other = location then (archive.directory? location).map (·.put entry)
        else archive.directory? other :=
  directory?_updateRoot (g := (·.put entry)) (fun _ => rfl) location other

/-- A new directory is seen at its own location only. -/
theorem directory?_addDirectory {archive : Archive} {location : Location} {name : String}
    (hlive : archive.Live location) (hmissing : ¬ archive.Live (location ++ [name]))
    (other : Location) :
    (archive.addDirectory location name).directory? other
      = if other = location ++ [name] then some { id := archive.nextId, name }
        else archive.directory? other := by
  set directory : Directory := { id := archive.nextId, name } with hdirectory
  by_cases hpre : location <+: other
  · obtain ⟨more, rfl⟩ := hpre
    have hself := Tree.descend?_update_append (f := Tree.addBelow directory) (fun _ => rfl)
      archive.root location more
    obtain ⟨found, hfound⟩ := Option.isSome_iff_exists.mp hlive
    have hroot : archive.root.descend? location = some found := hfound
    have hnew : name ∉ found.below.names := not_mem_names_of_not_live hroot hmissing
    unfold directory? Tree.directory? addDirectory
    rw [← hdirectory, hself, Tree.descend?_append, hroot]
    cases more with
    | nil => simp [Tree.addBelow]
    | cons first rest =>
      -- Below the place of the change the new directory is among the siblings, with nothing in it.
      have hchild : (found.below.insert Directory.before ⟨directory, .nil⟩).child? first
          = if first = name then some ⟨directory, .nil⟩ else found.below.child? first :=
        Forest.child?_insert hnew first
      simp only [Option.map_some, Option.bind_some, Tree.descend?_cons, Tree.addBelow, hchild]
      by_cases hfirst : first = name
      · have hnone : found.below.child? name = none := Forest.child?_eq_none_iff.mpr hnew
        rw [if_pos hfirst, hfirst, hnone]
        cases rest with
        | nil => simp
        | cons second rest => simp [Tree.descend?_cons, Forest.child?]
      · rw [if_neg hfirst]
        simp [hfirst]
  · have hne : other ≠ location ++ [name] := by
      rintro rfl
      exact hpre (List.prefix_append _ _)
    rw [if_neg hne]
    exact Tree.directory?_update_of_not_prefix (f := Tree.addBelow directory) (fun _ => rfl)
      archive.root hpre

theorem live_putFile {archive : Archive} {location other : Location} {entry : Entry} :
    (archive.putFile location entry).Live other ↔ archive.Live other := by
  rw [live_iff, live_iff, directory?_putFile]
  split
  · next heq => simp [heq]
  · rfl

theorem live_addDirectory {archive : Archive} {location other : Location} {name : String}
    (hlive : archive.Live location) (hmissing : ¬ archive.Live (location ++ [name])) :
    (archive.addDirectory location name).Live other
      ↔ other = location ++ [name] ∨ archive.Live other := by
  rw [live_iff, live_iff, directory?_addDirectory hlive hmissing]
  split
  · next heq => simp [heq]
  · next hne => simp [hne]

end HashArchive.Archive
