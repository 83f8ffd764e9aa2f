/-
  HashArchive.Proofs.Arena.Looks

  Looks at an arena that represents an archive.  They come to an end and meet no number without
  a directory: the way up from a directory passes the names of its location (`namesTo_eq`), a
  walk goes through the directories that it goes through in the tree (`map_walk?`), and the stack
  of directories to list is emptied in the preorder of the tree (`allDirectories_eq`).
-/
import Mathlib
import HashArchive.Proofs.Archive.Listing
import HashArchive.Proofs.Archive.Lookup
import HashArchive.Proofs.Arena.Represents

namespace HashArchive.Arena

open Archive

variable {ι : Type} [Handle ι] {arena : Arena ι} {archive : Archive} {location : Location} {id : ι}

/-! ## The way up -/

section Up

variable (h : arena.Represents archive)
include h

/-- A directory below another has its number. -/
theorem Represents.exists_parent {above : Location} {name : String}
    (hid : archive.idAt (above ++ [name]) = some (Handle.toNat id)) :
    ∃ node parent, arena.directories[id]? = some node ∧ node.name = name ∧
      node.parent? = some parent ∧ archive.idAt above = some (Handle.toNat parent) := by
  obtain ⟨node, hnode, hview⟩ := h.exists_node hid
  have hparent := parent?_of_view hview
  have hlive := live_dropLast (live_of_idAt hid)
  rw [List.dropLast_concat] at hlive
  obtain ⟨number, habove⟩ := exists_idAt_of_live hlive
  rw [if_neg (by simp), List.dropLast_concat, habove, Option.map_eq_some_iff] at hparent
  obtain ⟨parent, hparent, rfl⟩ := hparent
  have hname := name_of_view hview
  rw [List.getLast?_concat, Option.getD_some] at hname
  exact ⟨node, parent, hnode, hname, hparent, habove⟩

theorem Represents.exists_root :
    ∃ node, arena.directories[(Handle.root : ι)]? = some node ∧ node.name = archive.name ∧
      node.parent? = none := by
  obtain ⟨node, hnode, hview⟩ := h.exists_node h.idAt_nil
  have hparent := parent?_of_view hview
  rw [if_pos rfl, Option.map_eq_none_iff] at hparent
  exact ⟨node, hnode, name_of_view hview, hparent⟩

theorem Represents.eq_root (hid : archive.idAt [] = some (Handle.toNat id)) : id = Handle.root :=
  Handle.toNat_inj (Option.some.inj (hid.symm.trans h.idAt_nil))

/-- The way up passes the names that lead down. -/
theorem namesTo_eq (hid : archive.idAt location = some (Handle.toNat id)) (names : List String) :
    arena.namesTo id names = pure (location ++ names) := by
  -- The loop goes up, so the induction takes the last name off the location.
  induction location using List.reverseRecOn generalizing id names with
  | nil =>
    obtain ⟨root, hroot, -, hparent⟩ := h.exists_root
    rw [h.eq_root hid, namesTo, node_of_getElem? hroot, pure_bind, hparent, List.nil_append]
  | append_singleton above name ih =>
    obtain ⟨node, parent, hnode, hname, hparent, habove⟩ := h.exists_parent hid
    rw [namesTo, node_of_getElem? hnode, pure_bind, hparent]
    dsimp only
    rw [ih habove, hname, List.append_assoc, List.singleton_append]

theorem countUp_eq (hid : archive.idAt location = some (Handle.toNat id)) (count : Nat) :
    arena.countUp count (some id) = pure (count + 1 + location.length) := by
  induction location using List.reverseRecOn generalizing id count with
  | nil =>
    obtain ⟨root, hroot, -, hparent⟩ := h.exists_root
    rw [h.eq_root hid, countUp, node_of_getElem? hroot, pure_bind, hparent, countUp]
    rfl
  | append_singleton above name ih =>
    obtain ⟨node, parent, hnode, -, hparent, habove⟩ := h.exists_parent hid
    rw [countUp, node_of_getElem? hnode, pure_bind, hparent, ih habove, List.length_append,
      List.length_singleton]
    congr 1
    omega

theorem depth_eq (hid : archive.idAt location = some (Handle.toNat id)) :
    arena.depth id = pure location.length := by
  rw [depth]
  rcases List.eq_nil_or_concat' location with rfl | ⟨above, name, rfl⟩
  · obtain ⟨root, hroot, -, hparent⟩ := h.exists_root
    rw [h.eq_root hid, node_of_getElem? hroot, pure_bind, hparent, countUp]
    rfl
  · obtain ⟨node, parent, hnode, -, hparent, habove⟩ := h.exists_parent hid
    rw [node_of_getElem? hnode, pure_bind, hparent, countUp_eq h habove, List.length_append,
      List.length_singleton]
    congr 1
    omega

theorem directoryPath_eq (hid : archive.idAt location = some (Handle.toNat id)) :
    arena.directoryPath id = pure (archive.directoryPath location) := by
  obtain ⟨root, hroot, hname, -⟩ := h.exists_root
  rw [directoryPath, node_of_getElem? hroot, pure_bind, namesTo_eq h hid, pure_bind, hname,
    List.append_nil, Archive.directoryPath]

/-- Both ways to key a file are those of the tree. -/
theorem keyIn_eq (hid : archive.idAt location = some (Handle.toNat id)) (name : String) :
    arena.keyIn id name = pure (archive.keyIn location name) := by
  rw [Arena.keyIn, Archive.keyIn, h.policy_eq]
  by_cases hkeep : archive.policy.keepDuplicates = true
  · rw [if_pos hkeep, if_pos hkeep, directoryPath_eq h hid]
    rfl
  · rw [if_neg hkeep, if_neg hkeep]

section Files

variable {file : File ι} (hid : archive.idAt location = some (Handle.toNat file.directory))
include hid

theorem fullPath_eq :
    arena.fullPath file = pure (archive.directoryPath location ++ "/" ++ file.name) := by
  rw [fullPath, directoryPath_eq h hid, pure_bind]

theorem relativePath_eq :
    arena.relativePath file = pure ("/".intercalate (location ++ [file.name])) := by
  rw [relativePath, namesTo_eq h hid, pure_bind, List.append_nil]

theorem fileKey_eq :
    arena.fileKey file
      = pure (Name.locationKey (archive.directoryPath location ++ "/" ++ file.key)) := by
  rw [fileKey, directoryPath_eq h hid, pure_bind]

end Files

end Up

/-! ## Walks -/

section Walks

variable (h : arena.Represents archive)
include h

theorem map_step? (hid : archive.idAt location = some (Handle.toNat id)) (segment : Segment) :
    (arena.step? id segment).map Handle.toNat
      = (archive.step? location segment).bind archive.idAt := by
  obtain ⟨node, hnode, hview⟩ := h.exists_node hid
  rw [step?, hnode]
  cases segment with
  | parent =>
    show some (Handle.toNat (node.parent?.getD id)) = archive.idAt location.dropLast
    rcases List.eq_nil_or_concat' location with rfl | ⟨above, name, rfl⟩
    · have hparent := parent?_of_view hview
      rw [if_pos rfl, Option.map_eq_none_iff] at hparent
      rw [hparent]
      exact hid.symm
    · obtain ⟨node', parent, hnode', -, hparent, habove⟩ := h.exists_parent hid
      obtain rfl := Option.some.inj (hnode.symm.trans hnode')
      rw [hparent, List.dropLast_concat, habove]
      rfl
  | name name =>
    show (node.subdirectories[name]?).map Handle.toNat = _
    rw [subdirectory?_of_view hview]
    by_cases hthere : archive.Live (location ++ [name])
    · have hstep : archive.step? location (.name name) = some (location ++ [name]) := if_pos hthere
      rw [hstep, Option.bind_some]
    · have hstep : archive.step? location (.name name) = none := if_neg hthere
      rw [hstep, Option.bind_none, ← Option.not_isSome_iff_eq_none, ← live_iff_idAt]
      exact hthere

/-- A walk ends at the number of the location that it ends at in the tree. -/
theorem map_walk? (hid : archive.idAt location = some (Handle.toNat id)) (segments : List Segment) :
    (arena.walk? id segments).map Handle.toNat
      = (archive.walk? location segments).bind archive.idAt := by
  induction segments generalizing location id with
  | nil =>
    obtain ⟨node, hnode, -⟩ := h.exists_node hid
    have hwalk : arena.walk? id [] = some id := by
      show (arena.directories[id]?).bind _ = _
      rw [hnode]
      rfl
    rw [hwalk]
    exact hid.symm
  | cons segment segments ih =>
    have hwalk : arena.walk? id (segment :: segments)
        = (arena.step? id segment).bind (arena.walk? · segments) := by
      simp only [walk?, List.foldlM_cons, Option.bind_eq_bind, Option.bind_assoc]
    have hwalk' : archive.walk? location (segment :: segments)
        = (archive.step? location segment).bind (archive.walk? · segments) := rfl
    have hstep := map_step? h hid segment
    rw [hwalk, hwalk']
    cases hnext : archive.step? location segment with
    | none =>
      rw [hnext, Option.bind_none, Option.map_eq_none_iff] at hstep
      rw [hstep]
      rfl
    | some next =>
      have hlive := ((step?_eq_some_iff (live_of_idAt hid)).mp hnext).2
      obtain ⟨number, hnumber⟩ := exists_idAt_of_live hlive
      rw [hnext, Option.bind_some, hnumber, Option.map_eq_some_iff] at hstep
      obtain ⟨below, hbelow, rfl⟩ := hstep
      rw [hbelow]
      exact ih hnumber

omit h in
/-- From a number without a directory no walk leads on. -/
theorem walk?_of_getElem?_eq_none (hnone : arena.directories[id]? = none)
    (segments : List Segment) : arena.walk? id segments = none := by
  cases segments with
  | nil =>
    show (arena.directories[id]?).bind _ = none
    rw [hnone]
    rfl
  | cons segment segments =>
    have hstep : arena.step? id segment = none := by
      rw [step?, hnone]
      rfl
    rw [walk?, List.foldlM_cons, hstep]
    rfl

theorem map_findDirectory? (start : ι) (path : String) :
    (arena.findDirectory? start path).map Handle.toNat
      = (archive.findDirectory? (Handle.toNat start) path).map Place.id := by
  rw [findDirectory?]
  cases hstart : arena.directories[start]? with
  | none =>
    rw [walk?_of_getElem?_eq_none hstart,
      (inert_of_place?_eq_none (h.getElem?_eq_none_iff.mp hstart)).findDirectory]
    rfl
  | some node =>
    obtain ⟨location, hid, -⟩ := h.exists_location hstart
    obtain ⟨tree, hplace⟩ := exists_place?_of_idAt h.wellFormed hid
    rw [map_walk? h hid, findDirectory?_of_place? hplace, Option.map_bind]
    congr 1
    funext last
    rw [Function.comp_apply, Option.map_map, idAt, directory?, Tree.directory?, Option.map_map]
    rfl

end Walks

/-! ## Files by their paths -/

theorem Node.keyNamed?_eq {node : Node ι} (h : node.Keyed id) (name : String) :
    node.keyNamed? name
      = (node.view.files.find? (·.key == name) <|> node.view.files.find? (·.name == name)).map
          (·.key) := by
  rw [Node.keyNamed?, ← Node.map_toEntry_getElem? h]
  cases hfile : node.files[name]? with
  | some file =>
    have hcontains : node.files.contains name := by
      rw [Std.ExtTreeMap.contains_eq_isSome_getElem?, hfile]
      rfl
    rw [if_pos hcontains]
    exact congrArg some (h name file hfile).1.symm
  | none =>
    have hcontains : ¬ node.files.contains name := by
      rw [Std.ExtTreeMap.contains_eq_isSome_getElem?, hfile]
      exact Bool.false_ne_true
    rw [if_neg hcontains, Node.view, List.find?_map, Option.map_none]
    show _ = Option.map _ (Option.map _ _)
    rw [Option.map_map]
    rfl

section Paths

variable (h : arena.Represents archive)
include h

/-- A name leads to the same key in a directory and in the tree. -/
theorem exists_keyNamed?_eq (hid : archive.idAt location = some (Handle.toNat id))
    (name : String) :
    ∃ node tree, arena.directories[id]? = some node ∧ archive.descend? location = some tree ∧
      node.keyNamed? name = (tree.label.fileNamed? name).map (·.key) := by
  obtain ⟨node, hnode, hview⟩ := h.exists_node hid
  obtain ⟨tree, hplace⟩ := exists_place?_of_idAt h.wellFormed hid
  have hmem := ((place?_eq_some_iff h.wellFormed).mp hplace).1
  refine ⟨node, tree, hnode, (mem_places_iff h.wellFormed).mp hmem, ?_⟩
  have hfiles : node.view.files = tree.label.files := by
    rw [hview]
    exact held_of_mem_places h.wellFormed hmem
  rw [Node.keyNamed?_eq (h.keyed _ _ hnode), hfiles, Directory.fileNamed?, Directory.file?]

/-- The file that is looked for is at the address that it has in the tree. -/
theorem locate?_eq (start : ι) (path : String) :
    ∃ found, arena.locate? start path = pure found ∧
      found.map (fun (id, key) => (Handle.toNat id, key))
        = (archive.locate? (Handle.toNat start) path).bind fun address =>
            (archive.idAt address.location).map fun number => (number, address.key) := by
  rw [locate?, Archive.locate?]
  cases Path.file? path with
  | none => exact ⟨none, rfl, rfl⟩
  | some split =>
    obtain ⟨segments, name⟩ := split
    dsimp only
    cases hstart : arena.directories[start]? with
    | none =>
      rw [walk?_of_getElem?_eq_none hstart, h.getElem?_eq_none_iff.mp hstart]
      exact ⟨none, rfl, rfl⟩
    | some node =>
      obtain ⟨location, hid, -⟩ := h.exists_location hstart
      obtain ⟨tree, hplace⟩ := exists_place?_of_idAt h.wellFormed hid
      have hwalk := map_walk? h hid segments
      simp only [hplace, Option.bind_eq_bind, Option.bind_some]
      cases hlast : archive.walk? location segments with
      | none =>
        rw [hlast, Option.bind_none, Option.map_eq_none_iff] at hwalk
        rw [hwalk]
        exact ⟨none, rfl, rfl⟩
      | some last =>
        have hlive := live_of_walk? (live_of_idAt hid) hlast
        obtain ⟨number, hnumber⟩ := exists_idAt_of_live hlive
        rw [hlast, Option.bind_some, hnumber, Option.map_eq_some_iff] at hwalk
        obtain ⟨below, hbelow, rfl⟩ := hwalk
        obtain ⟨node, tree, hnode, htree, hkey⟩ := exists_keyNamed?_eq h hnumber name
        rw [hbelow]
        dsimp only
        rw [node_of_getElem? hnode, pure_bind]
        refine ⟨_, rfl, ?_⟩
        rw [hkey, Option.bind_some, htree]
        show _ = ((tree.label.fileNamed? name).bind _).bind _
        cases tree.label.fileNamed? name with
        | none => rfl
        | some entry =>
          show some (Handle.toNat below, entry.key) = (archive.idAt last).map _
          rw [hnumber]
          rfl

theorem locate?_of_findFile?_eq_none {start : ι} {path : String}
    (hnone : archive.findFile? (Handle.toNat start) path = none) :
    arena.locate? start path = pure none := by
  obtain ⟨found, hfound, haddress⟩ := locate?_eq h start path
  rw [locate?_eq_map h.wellFormed, hnone, Option.map_none, Option.bind_none,
    Option.map_eq_none_iff] at haddress
  rw [hfound, haddress]

/-- The file that is found in the tree is located where it is. -/
theorem locate?_of_findFile? {start : ι} {path : String} {file : StoredFile}
    (hfile : archive.findFile? (Handle.toNat start) path = some file) :
    ∃ id node stored, arena.locate? start path = pure (some (id, file.entry.key)) ∧
      Handle.toNat id = file.place.id ∧
      archive.idAt file.place.location = some (Handle.toNat id) ∧
      arena.directories[id]? = some node ∧
      node.files[file.entry.key]? = some stored ∧ stored.toEntry = file.entry := by
  obtain ⟨found, hfound, haddress⟩ := locate?_eq h start path
  have hmem := mem_files_iff.mp (mem_files_of_findFile? h.wellFormed hfile)
  have hid := idAt_of_mem_places h.wellFormed hmem.1
  have hplace : archive.idAt file.address.location = some file.place.id := hid
  rw [locate?_eq_map h.wellFormed, hfile, Option.map_some, Option.bind_some, hplace,
    Option.map_some, Option.map_eq_some_iff] at haddress
  obtain ⟨⟨id, key⟩, rfl, heq⟩ := haddress
  obtain ⟨hnumber, rfl⟩ := Prod.mk.inj heq
  rw [← hnumber] at hid
  obtain ⟨node, hnode, hview⟩ := h.exists_node hid
  have hentry : node.files[file.entry.key]?.map File.toEntry = some file.entry := by
    rw [Node.map_toEntry_getElem? (h.keyed id node hnode), hview]
    show (archive.held file.place.location).find? _ = _
    rw [held_of_mem_places h.wellFormed hmem.1]
    have hsound := h.wellFormed.sound _ (label_mem_of_mem_places hmem.1)
    exact (Directory.file?_eq_some_iff hsound.ascending).mpr ⟨hmem.2, rfl⟩
  obtain ⟨stored, hstored, heq⟩ := Option.map_eq_some_iff.mp hentry
  exact ⟨id, node, stored, hfound, hnumber, hid, hnode, hstored, heq⟩

/-- The file that is found is the one that is found in the tree. -/
theorem findFile?_eq (start : ι) (path : String) :
    ∃ found, arena.findFile? start path = pure found ∧
      found.map (fun file => (Handle.toNat file.directory, file.toEntry))
        = (archive.findFile? (Handle.toNat start) path).map fun file =>
            (file.place.id, file.entry) := by
  rw [findFile?]
  cases hfile : archive.findFile? (Handle.toNat start) path with
  | none =>
    rw [locate?_of_findFile?_eq_none h hfile, pure_bind]
    exact ⟨none, rfl, rfl⟩
  | some file =>
    obtain ⟨id, node, stored, hlocate, hnumber, -, hnode, hstored, hentry⟩ :=
      locate?_of_findFile? h hfile
    rw [hlocate, pure_bind]
    dsimp only
    rw [node_of_getElem? hnode, pure_bind]
    refine ⟨_, rfl, ?_⟩
    rw [hstored, Option.map_some, Option.map_some, (h.keyed _ _ hnode _ _ hstored).2, hentry,
      hnumber]

end Paths

/-! ## Lists -/

section Lists

variable (h : arena.Represents archive)
include h

/-- The table of the subdirectories is sorted into the order of the tree. -/
theorem sortedSubdirectories_eq {place : Place}
    (hplace : archive.place? (Handle.toNat id) = some place) :
    ∃ ids, arena.sortedSubdirectories id = pure ids ∧
      ids.map Handle.toNat = place.subdirectories := by
  have hid := idAt_of_place? h.wellFormed hplace
  obtain ⟨node, hnode, hview⟩ := h.exists_node hid
  have hmem := ((place?_eq_some_iff h.wellFormed).mp hplace).1
  have hordered := Tree.ordered_of_descend? h.wellFormed.ordered
    (show archive.root.descend? place.location = some place.tree from
      (mem_places_iff h.wellFormed).mp hmem)
  have htable : place.IsTable
      (node.subdirectories.toList.map fun link => (link.1, Handle.toNat link.2)) := by
    refine ⟨?_, fun name number => ?_⟩
    · refine List.pairwise_map.mpr ?_
      refine node.subdirectories.distinct_keys_toList.imp fun {a b} hne heq => ?_
      exact hne (Std.LawfulEqOrd.compare_eq_iff_eq.mpr (Prod.mk.inj heq).1)
    · rw [subdirectory?_eq_idAt h.wellFormed hplace, ← subdirectory?_of_view hview, List.mem_map,
        Option.map_eq_some_iff]
      constructor
      · rintro ⟨⟨first, child⟩, hchild, heq⟩
        obtain ⟨rfl, rfl⟩ := Prod.mk.inj heq
        exact ⟨child, Std.ExtTreeMap.mem_toList_iff_getElem?_eq_some.mp hchild, rfl⟩
      · rintro ⟨child, hchild, rfl⟩
        exact ⟨(name, child), Std.ExtTreeMap.mem_toList_iff_getElem?_eq_some.mpr hchild, rfl⟩
  rw [sortedSubdirectories, node_of_getElem? hnode, pure_bind]
  refine ⟨_, rfl, ?_⟩
  rw [← inOrder_eq_subdirectories hordered htable, inOrder,
    Sorted.sort_map (fun link : String × ι => (link.1, Handle.toNat link.2)), List.map_map,
    List.map_map]
  rfl

theorem sortedFiles_eq {place : Place} (hplace : archive.place? (Handle.toNat id) = some place) :
    ∃ files, arena.sortedFiles id = pure files ∧
      files.map File.toEntry = place.tree.label.listing ∧ ∀ file ∈ files, file.directory = id := by
  have hid := idAt_of_place? h.wellFormed hplace
  obtain ⟨node, hnode, hview⟩ := h.exists_node hid
  have hmem := ((place?_eq_some_iff h.wellFormed).mp hplace).1
  rw [sortedFiles, node_of_getElem? hnode, pure_bind]
  refine ⟨_, rfl, ?_, fun file hfile => ?_⟩
  · rw [← Sorted.sort_map File.toEntry, fileList_of_view hview,
      held_of_mem_places h.wellFormed hmem]
    rfl
  · obtain ⟨key, hfile⟩ := Node.mem_fileList.mp ((Sorted.perm_sort _ _).mem_iff.mp hfile)
    exact (h.keyed id node hnode key file hfile).2

/-- The stack is emptied as the loop over the tree empties it. -/
theorem listFrom_eq {stack : List ι} {numbers : List DirectoryId}
    (hlists : archive.Lists (stack.map Handle.toNat) numbers) (listed : List ι) :
    ∃ ids, arena.listFrom listed stack = pure (listed ++ ids) ∧ ids.map Handle.toNat = numbers := by
  generalize hstack : stack.map Handle.toNat = tops at hlists
  induction hlists generalizing stack listed with
  | done =>
    obtain rfl := List.map_eq_nil_iff.mp hstack
    refine ⟨[], ?_, rfl⟩
    rw [listFrom, List.append_nil]
  | @visit number place tops numbers live rest ih =>
    obtain ⟨id, stack, rfl, rfl, rfl⟩ := List.map_eq_cons_iff.mp hstack
    obtain ⟨below, hbelow, hmap⟩ := sortedSubdirectories_eq h live
    have hpushed : (push stack below.reverse).map Handle.toNat
        = place.subdirectories ++ stack.map Handle.toNat := by
      rw [push, List.reverse_reverse, List.map_append, hmap]
    obtain ⟨ids, hids, hnumbers⟩ := ih (listed ++ [id]) hpushed
    refine ⟨id :: ids, ?_, by rw [List.map_cons, hnumbers]⟩
    rw [listFrom, hbelow, pure_bind, hids, List.append_assoc]
    rfl

theorem allDirectories_eq :
    ∃ ids, arena.allDirectories = pure ids ∧
      ids.map Handle.toNat = archive.places.map Place.id := by
  have hlists := lists_places h.wellFormed
  have hroot : [rootId] = [(Handle.root : ι)].map Handle.toNat :=
    congrArg (fun number => [number]) Handle.toNat_root.symm
  rw [hroot] at hlists
  exact listFrom_eq h hlists []

theorem mapM_sortedFiles_eq {ids : List ι} {places : List Place}
    (hids : ids.map Handle.toNat = places.map Place.id)
    (hplaces : ∀ place ∈ places, place ∈ archive.places) :
    ∃ rows, ids.mapM arena.sortedFiles = pure rows ∧
      rows.flatten.map (fun file => (Handle.toNat file.directory, file.toEntry))
        = places.flatMap fun place =>
            place.tree.label.listing.map fun entry => (place.id, entry) := by
  induction ids generalizing places with
  | nil =>
    obtain rfl := List.map_eq_nil_iff.mp hids.symm
    exact ⟨[], rfl, rfl⟩
  | cons id ids ih =>
    obtain ⟨place, places, rfl, hid, hids⟩ := List.map_eq_cons_iff.mp hids.symm
    obtain ⟨hplace, hrest⟩ := List.forall_mem_cons.mp hplaces
    obtain ⟨rows, hrows, hmap⟩ := ih hids.symm hrest
    have hfound := place?_id h.wellFormed hplace
    rw [hid] at hfound
    obtain ⟨files, hfiles, hentries, hdirectory⟩ := sortedFiles_eq h hfound
    have hrow : files.map (fun file => (Handle.toNat file.directory, file.toEntry))
        = place.tree.label.listing.map fun entry => (place.id, entry) := by
      rw [← hentries, List.map_map]
      refine List.map_congr_left fun file hmem => ?_
      rw [hdirectory file hmem, Function.comp_apply, hid]
    refine ⟨files :: rows, ?_, ?_⟩
    · rw [List.mapM_cons, hfiles, pure_bind, hrows, pure_bind]
    · rw [List.flatten_cons, List.map_append, hrow, hmap, List.flatMap_cons]

theorem allFiles_eq :
    ∃ files, arena.allFiles = pure files ∧
      files.map (fun file => (Handle.toNat file.directory, file.toEntry))
        = archive.files.map fun file => (file.place.id, file.entry) := by
  obtain ⟨ids, hids, hnumbers⟩ := allDirectories_eq h
  obtain ⟨rows, hrows, hmap⟩ := mapM_sortedFiles_eq h hnumbers fun _ hmem => hmem
  refine ⟨rows.flatten, ?_, ?_⟩
  · rw [allFiles, hids, pure_bind, hrows, pure_bind]
  · rw [hmap, Archive.files, List.map_flatMap]
    simp only [List.map_map]
    rfl

end Lists

end HashArchive.Arena
