/-
  HashArchive.Proofs.Arena.Linked

  The two ways in which an arena keeps its directories agree (`Linked`): each directory is held
  by the one whose number it has, under its own name, and has the number of the one that holds
  it.  So the loops up and down the links come to an end and meet directories only, after every
  run of operations (`linked_of_reachable`).
-/
import Mathlib
import HashArchive.Proofs.Arena.Reachable

namespace HashArchive.Arena

open Archive

variable {ι : Type} [Handle ι]

/-- The loop up from a directory ends at the root and passes these names, the root's own
    left out. -/
inductive Climbs (arena : Arena ι) : ι → Location → Prop
  | root {node : Node ι} (live : arena.directories[(Handle.root : ι)]? = some node)
      (last : node.parent? = none) : Climbs arena Handle.root []
  | step {id parent : ι} {node : Node ι} {names : Location}
      (live : arena.directories[id]? = some node) (up : node.parent? = some parent)
      (above : Climbs arena parent names) : Climbs arena id (names ++ [node.name])

/-- What the numbers of the directories lead to. -/
structure Linked (arena : Arena ι) : Prop where
  root : ∃ node, arena.directories[(Handle.root : ι)]? = some node ∧ node.parent? = none
  above : ∀ {id : ι} {node : Node ι}, arena.directories[id]? = some node → id ≠ Handle.root →
    ∃ parent holder, node.parent? = some parent ∧ arena.directories[parent]? = some holder ∧
      holder.subdirectories[node.name]? = some id
  below : ∀ {id child : ι} {node : Node ι} {name : String}, arena.directories[id]? = some node →
    node.subdirectories[name]? = some child →
    ∃ below, arena.directories[child]? = some below ∧ below.name = name ∧ below.parent? = some id
  bounded : ∀ {id : ι} {node : Node ι}, arena.directories[id]? = some node →
    Handle.toNat id < Handle.toNat arena.nextId
  keyed : ∀ {id : ι} {node : Node ι} {key : String} {file : File ι},
    arena.directories[id]? = some node → node.files[key]? = some file →
    file.key = key ∧ file.directory = id
  -- The loops answer, and what they answer.
  climbs : ∀ {id : ι} {node : Node ι}, arena.directories[id]? = some node →
    ∃ names path, arena.Climbs id names ∧ arena.depth id = pure names.length ∧
      arena.directoryPath id = pure path ∧
      ∀ (key : String) (file : File ι), node.files[key]? = some file →
        arena.relativePath file = pure ("/".intercalate (names ++ [file.name])) ∧
        arena.fileKey file = pure (Name.locationKey (path ++ "/" ++ key))
  directories : ∃ ids, arena.allDirectories = pure ids ∧
    ∀ id, id ∈ ids ↔ (arena.directories[id]?).isSome
  files : ∃ files, arena.allFiles = pure files ∧
    ∀ file, file ∈ files ↔ ∃ node, arena.directories[file.directory]? = some node ∧
      node.files[file.key]? = some file

section Represents

variable {arena : Arena ι} {archive : Archive} {location : Location} {id : ι}
  (h : arena.Represents archive)
include h

theorem climbs_of_idAt (hid : archive.idAt location = some (Handle.toNat id)) :
    arena.Climbs id location := by
  -- The loop goes up, so the induction takes the last name off the location.
  induction location using List.reverseRecOn generalizing id with
  | nil =>
    obtain ⟨root, hroot, -, hparent⟩ := h.exists_root
    rw [h.eq_root hid]
    exact .root hroot hparent
  | append_singleton above name ih =>
    obtain ⟨node, parent, hnode, rfl, hparent, habove⟩ := h.exists_parent hid
    exact .step hnode hparent (ih habove)

theorem isSome_getElem?_iff :
    (arena.directories[id]?).isSome ↔ (archive.place? (Handle.toNat id)).isSome := by
  rw [← Option.isSome_map (f := Node.view), h.view?_eq, view?, Option.isSome_map]

theorem mem_allDirectories_iff {ids : List ι} (hids : arena.allDirectories = pure ids) :
    id ∈ ids ↔ (arena.directories[id]?).isSome := by
  obtain ⟨listed, hlisted, hnumbers⟩ := allDirectories_eq h
  obtain rfl : ids = listed := Except.ok.inj (Option.some.inj (hids.symm.trans hlisted))
  rw [isSome_getElem?_iff h, ← List.mem_map_of_injective fun _ _ => Handle.toNat_inj, hnumbers,
    List.mem_map]
  constructor
  · rintro ⟨place, hmem, hid⟩
    exact Option.isSome_of_eq_some ((place?_eq_some_iff h.wellFormed).mpr ⟨hmem, hid⟩)
  · intro hsome
    obtain ⟨place, hplace⟩ := Option.isSome_iff_exists.mp hsome
    exact ⟨place, (place?_eq_some_iff h.wellFormed).mp hplace⟩

/-- A directory holds the files that it shows. -/
theorem getElem?_files_iff {file : File ι} :
    (∃ node, arena.directories[file.directory]? = some node ∧ node.files[file.key]? = some file) ↔
      ∃ stored ∈ archive.files, stored.place.id = Handle.toNat file.directory ∧
        stored.entry = file.toEntry := by
  constructor
  · rintro ⟨node, hnode, hfile⟩
    obtain ⟨location, hid, hview⟩ := h.exists_location hnode
    obtain ⟨tree, hplace⟩ := exists_place?_of_idAt h.wellFormed hid
    obtain ⟨hmem, hnumber⟩ := (place?_eq_some_iff h.wellFormed).mp hplace
    refine ⟨⟨_, file.toEntry⟩, mem_files_iff.mpr ⟨hmem, ?_⟩, hnumber, rfl⟩
    have hheld := held_of_mem_places h.wellFormed hmem
    rw [← fileList_of_view hview] at hheld
    exact hheld ▸ List.mem_map_of_mem (Node.mem_fileList.mpr ⟨_, hfile⟩)
  · rintro ⟨stored, hmem, hnumber, hentry⟩
    obtain ⟨hplace, hheld⟩ := mem_files_iff.mp hmem
    have hid := idAt_of_mem_places h.wellFormed hplace
    rw [hnumber] at hid
    obtain ⟨node, hnode, hview⟩ := h.exists_node hid
    have hkeyed := h.keyed _ node hnode
    rw [← held_of_mem_places h.wellFormed hplace, hentry] at hheld
    have hshown : file.toEntry ∈ node.view.files := by
      rw [hview]
      exact hheld
    obtain ⟨other, hother, hsame⟩ := (Node.mem_view_files hkeyed).mp hshown
    have hdirectory := (hkeyed _ _ hother).2
    obtain ⟨entry, directory⟩ := file
    obtain ⟨entry', directory'⟩ := other
    obtain rfl : entry' = entry := hsame
    obtain rfl : directory' = directory := hdirectory
    exact ⟨node, hnode, hother⟩

theorem mem_allFiles_iff {files : List (File ι)} (hfiles : arena.allFiles = pure files)
    {file : File ι} :
    file ∈ files ↔ ∃ node, arena.directories[file.directory]? = some node ∧
      node.files[file.key]? = some file := by
  obtain ⟨listed, hlisted, hentries⟩ := allFiles_eq h
  obtain rfl : files = listed := Except.ok.inj (Option.some.inj (hfiles.symm.trans hlisted))
  have hinj : Function.Injective fun file : File ι =>
      (Handle.toNat file.directory, file.toEntry) := by
    rintro ⟨entry, directory⟩ ⟨entry', directory'⟩ heq
    obtain ⟨hdirectory, hentry⟩ := Prod.mk.inj heq
    obtain rfl : directory = directory' := Handle.toNat_inj hdirectory
    obtain rfl : entry = entry' := hentry
    rfl
  rw [getElem?_files_iff h, ← List.mem_map_of_injective hinj, hentries, List.mem_map]
  simp only [Prod.mk.injEq]

/-- The links of an arena that represents an archive agree. -/
theorem linked_of_represents : arena.Linked where
  root := by
    obtain ⟨root, hroot, -, hparent⟩ := h.exists_root
    exact ⟨root, hroot, hparent⟩
  above := by
    intro id node hnode hne
    obtain ⟨location, hid, -⟩ := h.exists_location hnode
    rcases List.eq_nil_or_concat' location with rfl | ⟨above, name, rfl⟩
    · exact absurd (h.eq_root hid) hne
    · obtain ⟨node', parent, holder, hnode', rfl, hparent, -, hholder, hlink, -⟩ :=
        h.exists_holder hid
      obtain rfl := Option.some.inj (hnode.symm.trans hnode')
      exact ⟨parent, holder, hparent, hholder, hlink⟩
  below := by
    intro id child node name hnode hchild
    obtain ⟨location, hid, hview⟩ := h.exists_location hnode
    have hbelow := (subdirectory?_of_view hview name).symm
    rw [hchild, Option.map_some] at hbelow
    obtain ⟨below, parent, hnode', hname, hparent, habove⟩ := h.exists_parent hbelow
    obtain rfl := Handle.toNat_inj (Option.some.inj (hid.symm.trans habove))
    exact ⟨below, hnode', hname, hparent⟩
  bounded := by
    intro id node hnode
    obtain ⟨location, hid, -⟩ := h.exists_location hnode
    obtain ⟨tree, hplace⟩ := exists_place?_of_idAt h.wellFormed hid
    rw [h.nextId_eq]
    exact lt_nextId_of_place? h.wellFormed (Option.isSome_of_eq_some hplace)
  keyed := fun hnode hfile => h.keyed _ _ hnode _ _ hfile
  climbs := by
    intro id node hnode
    obtain ⟨location, hid, -⟩ := h.exists_location hnode
    refine ⟨location, archive.directoryPath location, climbs_of_idAt h hid, depth_eq h hid,
      directoryPath_eq h hid, fun key file hfile => ?_⟩
    obtain ⟨rfl, rfl⟩ := h.keyed id node hnode key file hfile
    exact ⟨relativePath_eq h hid, fileKey_eq h hid⟩
  directories := by
    obtain ⟨ids, hids, -⟩ := allDirectories_eq h
    exact ⟨ids, hids, fun _ => mem_allDirectories_iff h hids⟩
  files := by
    obtain ⟨files, hfiles, -⟩ := allFiles_eq h
    exact ⟨files, hfiles, fun _ => mem_allFiles_iff h hfiles⟩

end Represents

/-- The numbers of the directories lead up and down the same tree after every run of
    operations. -/
theorem linked_of_reachable {next : ι → Option ι} (hnext : Handle.Lawful next) {arena : Arena ι}
    (h : Reachable next arena) : arena.Linked := by
  obtain ⟨archive, -, harena⟩ := exists_represents hnext h
  exact linked_of_represents harena

/-- A new arena with two directories, one in the other. -/
def nested : Arena UInt32 where
  directories := (∅ : Std.ExtTreeMap UInt32 (Node UInt32))
    |>.insert 0 (Node.link "a" 1 { name := "root", parent? := none })
    |>.insert 1 (Node.link "b" 2 { name := "a", parent? := some 0 })
    |>.insert 2 { name := "b", parent? := some 1 }
  nextId := 3

theorem linked_nested :
    run (ensureDirectory Handle.checked Handle.root "a/b") (new "root") = some (.ok 2, nested) ∧
      nested.Linked := by
  have hrun : run (ensureDirectory Handle.checked Handle.root "a/b") (new "root")
      = some (.ok 2, nested) := by decide +kernel
  exact ⟨hrun,
    linked_of_reachable Handle.lawful_checked (.ensureDirectory (.new "root") hrun nofun)⟩

end HashArchive.Arena
