/-
  HashArchive.Proofs.Arena.Represents

  Arenas that hold the directories of an archive (`Represents`): each number shows in the one
  what it shows in the other.  A change of one directory is done in both when it makes the same
  of what the directory shows (`Represents.setNode`), and a new directory takes the same number
  (`Represents.addDirectory`).
-/
import HashArchive.Proofs.Arena.Nodes
import HashArchive.Proofs.Arena.Steps

namespace HashArchive.Arena

open Archive

variable {ι : Type} [Handle ι]

/-- An arena holds the directories of a sound archive under their numbers. -/
structure Represents (arena : Arena ι) (archive : Archive) : Prop where
  wellFormed : archive.WellFormed
  view?_eq : ∀ id : ι, arena.directories[id]?.map Node.view = archive.view? (Handle.toNat id)
  keyed : ∀ (id : ι) (node : Node ι), arena.directories[id]? = some node → node.Keyed id
  nextId_eq : Handle.toNat arena.nextId = archive.nextId
  policy_eq : arena.policy = archive.policy

variable {arena : Arena ι} {archive after : Archive} {location : Location} {id : ι} {node : Node ι}

/-! ## Directories by their locations -/

section Locations

variable (h : arena.Represents archive)
include h

theorem Represents.exists_node (hid : archive.idAt location = some (Handle.toNat id)) :
    ∃ node, arena.directories[id]? = some node ∧ node.view = archive.viewAt location := by
  have hview := h.view?_eq id
  rw [view?_of_idAt h.wellFormed hid, Option.map_eq_some_iff] at hview
  exact hview

theorem Represents.exists_location (hnode : arena.directories[id]? = some node) :
    ∃ location, archive.idAt location = some (Handle.toNat id) ∧
      node.view = archive.viewAt location := by
  have hview := (h.view?_eq id).symm
  rw [hnode, Option.map_some] at hview
  obtain ⟨location, hid, hview⟩ := (view?_eq_some_iff h.wellFormed).mp hview
  exact ⟨location, hid, hview.symm⟩

theorem Represents.getElem?_eq_none_iff :
    arena.directories[id]? = none ↔ archive.place? (Handle.toNat id) = none := by
  rw [← Option.map_eq_none_iff, h.view?_eq, view?, Option.map_eq_none_iff]

/-- The numbers of the archive are numbers of the arena. -/
theorem Represents.exists_handle {number : DirectoryId}
    (hid : archive.idAt location = some number) :
    ∃ id : ι, Handle.toNat id = number ∧ archive.idAt location = some (Handle.toNat id) := by
  obtain ⟨tree, hplace⟩ := exists_place?_of_idAt h.wellFormed hid
  have hlt := lt_nextId_of_place? h.wellFormed (Option.isSome_of_eq_some hplace)
  rw [← h.nextId_eq] at hlt
  obtain ⟨id, rfl⟩ := Handle.exists_toNat_eq arena.nextId hlt.le
  exact ⟨id, rfl, hid⟩

theorem Represents.idAt_nil : archive.idAt [] = some (Handle.toNat (Handle.root : ι)) := by
  rw [Handle.toNat_root]
  exact congrArg some h.wellFormed.root_id

end Locations

/-! ## What a directory shows -/

section Shown

variable (hview : node.view = archive.viewAt location)
include hview

theorem parent?_of_view :
    node.parent?.map Handle.toNat
      = if location = [] then none else archive.idAt location.dropLast :=
  congrArg DirectoryView.parent? hview

theorem subdirectory?_of_view (name : String) :
    node.subdirectories[name]?.map Handle.toNat = archive.idAt (location ++ [name]) :=
  congrFun (congrArg DirectoryView.subdirectory? hview) name

theorem name_of_view : node.name = location.getLast?.getD archive.name :=
  congrArg DirectoryView.name hview

theorem fileList_of_view : node.fileList.map File.toEntry = archive.held location :=
  congrArg DirectoryView.files hview

end Shown

/-! ## Changes -/

theorem getElem?_setNode_self (arena : Arena ι) (id : ι) (node : Node ι) :
    (arena.setNode id node).directories[id]? = some node := by
  simp [setNode]

theorem getElem?_setNode_of_ne {other : ι} (hne : other ≠ id) :
    (arena.setNode id node).directories[other]? = arena.directories[other]? := by
  simp [setNode, Std.ExtTreeMap.getElem?_insert, Ne.symm hne]

/-- A number of an arena with another directory leads to that one or to what it led to before. -/
theorem eq_or_of_getElem?_setNode {other : ι} {found : Node ι}
    (h : (arena.setNode id node).directories[other]? = some found) :
    other = id ∧ found = node ∨ arena.directories[other]? = some found := by
  by_cases hother : other = id
  · rw [hother, getElem?_setNode_self, Option.some.injEq] at h
    exact Or.inl ⟨hother, h.symm⟩
  · rw [getElem?_setNode_of_ne hother] at h
    exact Or.inr h

theorem keyed_setNode
    (h : ∀ (other : ι) (found : Node ι), arena.directories[other]? = some found →
      found.Keyed other) (hkeyed : node.Keyed id) (other : ι) (found : Node ι)
    (hfound : (arena.setNode id node).directories[other]? = some found) : found.Keyed other := by
  rcases eq_or_of_getElem?_setNode hfound with ⟨rfl, rfl⟩ | hold
  · exact hkeyed
  · exact h other found hold

/-- The next number is that of no directory. -/
theorem Represents.ne_nextId (h : arena.Represents archive)
    (hid : archive.idAt location = some (Handle.toNat id)) : id ≠ arena.nextId := by
  rintro rfl
  obtain ⟨tree, hplace⟩ := exists_place?_of_idAt h.wellFormed hid
  have hlt := lt_nextId_of_place? h.wellFormed (Option.isSome_of_eq_some hplace)
  rw [h.nextId_eq] at hlt
  exact lt_irrefl _ hlt

/-- A change of one directory that makes the same of what it shows in the arena and in the
    archive. -/
theorem Represents.setNode (h : arena.Represents archive) {changed : Node ι}
    {f : DirectoryView → DirectoryView} (hnode : arena.directories[id]? = some node)
    (hview : changed.view = f node.view) (hkeyed : changed.Keyed id) (hafter : after.WellFormed)
    (hviews : ∀ number, after.view? number = (archive.view? number).map fun view =>
      if number = Handle.toNat id then f view else view)
    (hnext : after.nextId = archive.nextId) (hpolicy : after.policy = archive.policy) :
    (arena.setNode id changed).Represents after where
  wellFormed := hafter
  view?_eq := by
    intro other
    rw [hviews, ← h.view?_eq]
    by_cases hother : other = id
    · rw [hother, getElem?_setNode_self, hnode]
      simp [hview]
    · have hne : Handle.toNat other ≠ Handle.toNat id := mt Handle.toNat_inj hother
      rw [getElem?_setNode_of_ne hother]
      simp [hne, Function.comp_def]
  keyed := keyed_setNode h.keyed hkeyed
  nextId_eq := h.nextId_eq.trans hnext.symm
  policy_eq := h.policy_eq.trans hpolicy.symm

/-- A change of the files of one directory that makes the same of them in the arena and in the
    archive. -/
theorem Represents.changeFiles (h : arena.Represents archive) {changed : Node ι}
    {f : List Entry → List Entry} (hid : archive.idAt location = some (Handle.toNat id))
    (hnode : arena.directories[id]? = some node)
    (hview : changed.view = { node.view with files := f node.view.files })
    (hkeyed : changed.Keyed id) (hafter : (archive.changeFiles location f).WellFormed) :
    (arena.setNode id changed).Represents (archive.changeFiles location f) :=
  h.setNode (f := fun view => { view with files := f view.files }) hnode hview hkeyed hafter
    (fun _ => view?_changeFiles h.wellFormed hafter hid) rfl rfl

/-- A directory is added under the next number and put in its place. -/
theorem Represents.addDirectory (h : arena.Represents archive) {name : String} {following : ι}
    (hid : archive.idAt location = some (Handle.toNat id))
    (hnode : arena.directories[id]? = some node) (hmissing : ¬ archive.Live (location ++ [name]))
    (hplain : Path.Plain name)
    (hfollowing : Handle.toNat following = Handle.toNat arena.nextId + 1) :
    (({ arena with nextId := following }.setNode arena.nextId
      { name, parent? := some id }).setNode id (node.link name arena.nextId)).Represents
      (archive.addDirectory location name) := by
  have hlive := live_of_idAt hid
  have hformed := wellFormed_addDirectory h.wellFormed hlive hmissing hplain
  have hne := h.ne_nextId hid
  refine ⟨hformed, fun other => ?_, keyed_setNode (keyed_setNode h.keyed ?_) ?_, ?_, h.policy_eq⟩
  · rw [view?_addDirectory h.wellFormed hformed hid hmissing, ← h.view?_eq, ← h.nextId_eq]
    by_cases hself : other = id
    · rw [hself, getElem?_setNode_self, hnode, if_neg (mt Handle.toNat_inj hne), Option.map_some,
        Node.view_link]
      simp
    · have hother : Handle.toNat other ≠ Handle.toNat id := mt Handle.toNat_inj hself
      rw [getElem?_setNode_of_ne hself]
      by_cases hnew : other = arena.nextId
      · rw [hnew, getElem?_setNode_self, if_pos rfl, Option.map_some]
        simp [Node.view, Node.fileList]
      · rw [getElem?_setNode_of_ne hnew, if_neg (mt Handle.toNat_inj hnew)]
        simp [hother, Function.comp_def]
  · intro key file hfile
    simp at hfile
  · exact h.keyed id node hnode
  · exact hfollowing.trans (congrArg (· + 1) h.nextId_eq)

theorem represents_new (name : String) : (new name : Arena ι).Represents (Archive.new name) where
  wellFormed := wellFormed_new name
  view?_eq := by
    intro id
    by_cases hroot : id = Handle.root
    · have hid : (Archive.new name).idAt [] = some (Handle.toNat id) := by
        rw [hroot, Handle.toNat_root]
        rfl
      have hnone : ∀ first, (Archive.new name).idAt ([] ++ [first]) = none := fun _ => rfl
      rw [view?_of_idAt (wellFormed_new name) hid, hroot]
      simp only [new, Std.ExtTreeMap.getElem?_insert_self, Option.map_some, viewAt, funext hnone]
      simp [Node.view, Node.fileList]
      exact ⟨rfl, rfl⟩
    · have hother : (new name : Arena ι).directories[id]? = none := by
        simp [new, Ne.symm hroot]
      have hne : (rootId : DirectoryId) ≠ Handle.toNat id := by
        intro heq
        exact hroot (Handle.toNat_inj (heq.symm.trans Handle.toNat_root.symm))
      rw [hother, view?, Archive.place?, Archive.places]
      simp [Archive.new, Forest.places, Place.id, hne]
  keyed := by
    intro id node hnode
    rw [new, Std.ExtTreeMap.getElem?_insert] at hnode
    split at hnode
    · obtain rfl := Option.some.inj hnode
      intro key file hfile
      simp at hfile
    · simp at hnode
  nextId_eq := Handle.toNat_first
  policy_eq := rfl

theorem Represents.setPolicy (h : arena.Represents archive) (policy : Policy) :
    ({ arena with policy } : Arena ι).Represents { archive with policy } :=
  ⟨(Change.settings archive policy).evolves.wellFormed h.wellFormed, h.view?_eq, h.keyed,
    h.nextId_eq, rfl⟩

end HashArchive.Arena
