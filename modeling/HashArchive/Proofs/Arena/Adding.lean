/-
  HashArchive.Proofs.Arena.Adding

  Directories and files that are added to an arena that represents an archive.  They are added
  as in the tree: what fails fails with the same error before anything changes, and otherwise
  there is an arena that represents the archive with what was added, unless the counter has run
  out of numbers on the way (`ends_ensureDirectory`, `ends_addFile`, `ends_copyFile`).
-/
import Mathlib
import HashArchive.Proofs.Arena.Looks

namespace HashArchive

theorem Archive.Grows.nextId_le {archive after : Archive} (h : Archive.Grows archive after)
    (hformed : archive.WellFormed) : archive.nextId ≤ after.nextId :=
  (h.evolves.keepsOldIds hformed).1

namespace Arena

open Archive

variable {ι : Type} [Handle ι] {next : ι → Option ι} {arena : Arena ι} {archive : Archive}
  {location : Location} {id : ι}

/-! ## Walks that add directories -/

section Walks

variable (hnext : Handle.Lawful next) (h : arena.Represents archive)
  (hid : archive.idAt location = some (Handle.toNat id))
include hnext h hid

theorem ends_createChild {name : String} (hmissing : ¬ archive.Live (location ++ [name]))
    (hplain : Path.Plain name) :
    Ends (createChild next id name) arena
      (Handle.RunsOut next (archive.addDirectory location name).nextId)
      (fun below after => after.Represents (archive.addDirectory location name) ∧
        (archive.addDirectory location name).idAt (location ++ [name]) = some (Handle.toNat below))
      fun _ _ => False := by
  cases hfollowing : next arena.nextId with
  | none =>
    refine .trap arena (run_createChild_of_none hfollowing id name) ⟨_, hfollowing, ?_⟩
    rw [h.nextId_eq]
    exact Nat.lt_succ_self _
  | some following =>
    obtain ⟨node, hnode, -⟩ := h.exists_node hid
    have hadded := h.addDirectory hid hnode hmissing hplain (hnext _ _ hfollowing)
    have hthere : ({ arena with nextId := following }.setNode arena.nextId
        { name, parent? := some id }).directories[id]? = some node :=
      (getElem?_setNode_of_ne (h.ne_nextId hid)).trans hnode
    refine .answer arena.nextId _ ?_ ⟨hadded, ?_⟩
    · rw [run_createChild_of_some hfollowing, run_bind_of_ok (run_change _ hthere)]
      rfl
    · rw [idAt_addDirectory (live_of_idAt hid) hmissing, if_pos rfl, h.nextId_eq]

/-- A step leads to the number of the location that it leads to. -/
theorem ends_enter (segment : Segment)
    (hplain : ∀ name, segment = .name name → Path.Plain name) :
    Ends (enter next id segment) arena
      (Handle.RunsOut next (archive.enter location segment).1.nextId)
      (fun last after => after.Represents (archive.enter location segment).1 ∧
        (archive.enter location segment).1.idAt (archive.enter location segment).2
          = some (Handle.toNat last))
      fun _ _ => False := by
  obtain ⟨node, hnode, hview⟩ := h.exists_node hid
  have hrun : ∀ more, run (ask (·.node id) >>= more) arena = run (α := ι) (more node) arena :=
    fun _ => run_node_bind hnode
  cases segment with
  | parent =>
    refine .answer (node.parent?.getD id) arena (hrun _) ⟨h, ?_⟩
    have hstep := map_step? h hid .parent
    rw [step?, hnode] at hstep
    exact hstep.symm
  | name name =>
    have hchild := subdirectory?_of_view hview name
    by_cases hthere : archive.Live (location ++ [name])
    · obtain ⟨number, hnumber⟩ := exists_idAt_of_live hthere
      rw [hnumber, Option.map_eq_some_iff] at hchild
      obtain ⟨below, hbelow, rfl⟩ := hchild
      rw [enter_name_of_live hthere]
      refine .answer below arena ((hrun _).trans ?_) ⟨h, hnumber⟩
      dsimp only
      rw [hbelow]
      rfl
    · have hnone : archive.idAt (location ++ [name]) = none := by
        rw [← Option.not_isSome_iff_eq_none, ← live_iff_idAt]
        exact hthere
      rw [hnone, Option.map_eq_none_iff] at hchild
      rw [enter_name_of_not_live hthere]
      refine (ends_createChild hnext h hid hthere (hplain name rfl)).of_run_eq ((hrun _).trans ?_)
      dsimp only
      rw [hchild]

theorem ends_enterAll {segments : List Segment}
    (hplain : ∀ name, .name name ∈ segments → Path.Plain name) :
    Ends (enterAll next id segments) arena
      (Handle.RunsOut next (archive.enterAll location segments).1.nextId)
      (fun last after => after.Represents (archive.enterAll location segments).1 ∧
        (archive.enterAll location segments).1.idAt (archive.enterAll location segments).2
          = some (Handle.toNat last))
      fun _ _ => False := by
  induction segments generalizing arena archive location id with
  | nil => exact .pure ⟨h, hid⟩
  | cons segment segments ih =>
    have hstep := ends_enter hnext h hid segment fun name heq =>
      hplain name (heq ▸ List.mem_cons_self)
    have hgrows := grows_enter segment (live_of_idAt hid) fun name heq =>
      hplain name (heq ▸ List.mem_cons_self)
    have hrest : ∀ name, .name name ∈ segments → Path.Plain name :=
      fun name hmem => hplain name (List.mem_cons_of_mem _ hmem)
    have hmore := (grows_enterAll segments hgrows.2 hrest).1.nextId_le
      (hgrows.1.evolves.wellFormed h.wellFormed)
    refine Ends.bind hstep (·.mono hmore) (fun _ _ => False.elim) fun below after hafter => ?_
    exact ih hafter.1 hafter.2 hrest

/-- The directory of a path is made as it is in the tree. -/
theorem ends_ensureDirectory_at (path : String) :
    Ends (ensureDirectory next id path) arena
      (Handle.RunsOut next (archive.enterAll location (Path.segments path)).1.nextId)
      (fun last after => after.Represents (archive.enterAll location (Path.segments path)).1 ∧
        (archive.enterAll location (Path.segments path)).1.idAt
          (archive.enterAll location (Path.segments path)).2 = some (Handle.toNat last))
      fun _ _ => False :=
  ends_enterAll hnext h hid fun _ => Path.plain_of_mem_segments

end Walks

/-! ## New files -/

theorem run_insertFile {node : Node ι} (hnode : arena.directories[id]? = some node)
    (name key : String) (source : Source) :
    run (insertFile id name key source) arena
      = some (.ok { name, key, source, directory := id },
          arena.setNode id (node.put { name, key, source, directory := id })) := by
  rw [insertFile]
  exact run_bind_of_ok (run_change _ hnode)

variable (next) in
/-- From a directory that is there a file is added at the end of a walk. -/
theorem run_addFile {node : Node ι} (hnode : arena.directories[id]? = some node)
    {path name : String} {segments : List Segment}
    (hfile : Path.file? path = some (segments, name)) (source : Source) :
    run (addFile next id path source) arena
      = run (enterAll next id segments >>= fun last => do
          let key ← ask (·.keyIn last name)
          insertFile last name key source) arena := by
  rw [addFile, hfile]
  dsimp only
  rw [run_get_bind, hnode]

/-- A file is put under its key as in the tree. -/
theorem Represents.putFile (h : arena.Represents archive) {node : Node ι} {file : File ι}
    (hid : archive.idAt location = some (Handle.toNat id))
    (hnode : arena.directories[id]? = some node) (hfile : file.directory = id)
    (hafter : (archive.putFile location file.toEntry).WellFormed) :
    (arena.setNode id (node.put file)).Represents (archive.putFile location file.toEntry) := by
  have hkeyed := h.keyed id node hnode
  exact h.changeFiles hid hnode (Node.view_put hkeyed hfile) (hkeyed.put hfile) hafter

section Files

variable (hnext : Handle.Lawful next) (h : arena.Represents archive)
include hnext h

/-- A file goes where its path leads from a directory. -/
theorem ends_addFile_at (hid : archive.idAt location = some (Handle.toNat id)) {path name : String}
    {segments : List Segment} (hfile : Path.file? path = some (segments, name)) (source : Source) :
    Ends (addFile next id path source) arena
      (Handle.RunsOut next (archive.putFileAt location segments name source).1.nextId)
      (fun file after => after.Represents (archive.putFileAt location segments name source).1 ∧
        file.toEntry = archive.added (segments.foldl Segment.next location) name source ∧
        (archive.putFileAt location segments name source).1.idAt
          (segments.foldl Segment.next location) = some (Handle.toNat file.directory))
      fun _ _ => False := by
  obtain ⟨node, hnode, -⟩ := h.exists_node hid
  have hlive := live_of_idAt hid
  have hplain : ∀ name, .name name ∈ segments → Path.Plain name :=
    fun _ => Path.plain_above_of_file? hfile
  have hwalk := (grows_enterAll segments hlive hplain).1
  have hgrows := grows_putFileAt source hlive hplain (Path.plain_of_file? hfile)
  have hformed := hgrows.evolves.wellFormed h.wellFormed
  have hends := ends_enterAll hnext h hid hplain
  refine Ends.of_run_eq (run_addFile next hnode hfile source)
    (hends.bind (fun hout => hout) (fun _ _ => False.elim) ?_)
  rintro last after ⟨hafter, hlast⟩
  obtain ⟨node, hnode, -⟩ := hafter.exists_node hlast
  have hkey : (archive.enterAll location segments).1.keyIn
      (archive.enterAll location segments).2 name
      = archive.keyIn (segments.foldl Segment.next location) name := by
    rw [hwalk.keyIn_eq, enterAll_snd]
  set file : File ι :=
    { archive.added (segments.foldl Segment.next location) name source with directory := last }
  have hrun : run (ask (·.keyIn last name) >>= fun key => insertFile last name key source) after
      = some (.ok file, after.setNode last (node.put file)) := by
    rw [run_ask_bind (keyIn_eq hafter hlast name), run_insertFile hnode, hkey]
    rfl
  have hput : (archive.putFileAt location segments name source).1
      = (archive.enterAll location segments).1.putFile (archive.enterAll location segments).2
          file.toEntry := by
    show _ = Archive.putFile _ _ (archive.added (segments.foldl Segment.next location) name source)
    rw [added, ← hkey]
    rfl
  refine .answer file _ hrun ⟨?_, rfl, ?_⟩
  · rw [hput] at hformed ⊢
    exact hafter.putFile hlast hnode rfl hformed
  · rw [hput, ← enterAll_snd archive]
    exact (idAt_changeFiles _ _ _ _).trans hlast

/-- A file is added as it is in the tree, and what fails there fails here. -/
theorem ends_addFile (start : ι) (path : String) (source : Source) :
    Ends (addFile next start path source) arena
      (∃ after address, archive.addFile (Handle.toNat start) path source = .ok (after, address) ∧
        Handle.RunsOut next after.nextId)
      (fun file final => ∃ after address,
        archive.addFile (Handle.toNat start) path source = .ok (after, address) ∧
          final.Represents after ∧ file.key = address.key ∧
          after.idAt address.location = some (Handle.toNat file.directory))
      fun error final =>
        archive.addFile (Handle.toNat start) path source = .error error ∧ final = arena := by
  cases hfile : Path.file? path with
  | none =>
    refine .fault (.noFileName path) arena ?_ ⟨?_, rfl⟩
    · rw [addFile, hfile]
      rfl
    · rw [Archive.addFile, hfile]
  | some split =>
    obtain ⟨segments, name⟩ := split
    cases hstart : arena.directories[start]? with
    | none =>
      refine .fault (.unknownDirectory (Handle.toNat start)) arena ?_ ⟨?_, rfl⟩
      · rw [addFile, hfile]
        dsimp only
        rw [run_get_bind, hstart]
        rfl
      · rw [Archive.addFile, hfile, h.getElem?_eq_none_iff.mp hstart]
    | some node =>
      obtain ⟨location, hid, -⟩ := h.exists_location hstart
      obtain ⟨tree, hplace⟩ := exists_place?_of_idAt h.wellFormed hid
      have hlive := live_of_idAt hid
      have haddress := putFileAt_snd hlive (fun _ => Path.plain_above_of_file? hfile) name source
      have hadd : archive.addFile (Handle.toNat start) path source
          = .ok (archive.putFileAt location segments name source) := by
        rw [Archive.addFile, hfile, hplace]
      refine (ends_addFile_at hnext h hid hfile source).mono (fun hout => ⟨_, _, hadd, hout⟩) ?_
        fun _ _ => False.elim
      rintro file final ⟨hfinal, hentry, hdirectory⟩
      refine ⟨(archive.putFileAt location segments name source).1,
        (archive.putFileAt location segments name source).2, hadd, hfinal, ?_, ?_⟩
      · rw [haddress]
        exact congrArg Entry.key hentry
      · rw [haddress]
        exact hdirectory

theorem ends_copyFile (source target : String) :
    Ends (copyFile next source target) arena
      (∃ after address, archive.copyFile source target = .ok (after, address) ∧
        Handle.RunsOut next after.nextId)
      (fun file final => ∃ after address, archive.copyFile source target = .ok (after, address) ∧
        final.Represents after ∧ file.key = address.key ∧
        after.idAt address.location = some (Handle.toNat file.directory))
      fun error final => archive.copyFile source target = .error error ∧ final = arena := by
  obtain ⟨found, hfound, hmap⟩ := findFile?_eq h (Handle.root : ι) source
  have hroot : Handle.toNat (Handle.root : ι) = rootId := Handle.toNat_root
  rw [hroot] at hmap
  have hrun : ∀ more, run (ask (·.findFile? (Handle.root : ι) source) >>= more) arena
      = run (α := File ι) (more found) arena := fun _ => run_ask_bind hfound
  rw [copyFile]
  cases hfile : archive.findFile? rootId source with
  | none =>
    rw [hfile, Option.map_none, Option.map_eq_none_iff] at hmap
    refine .fault (.fileNotFound source) arena ?_ ⟨?_, rfl⟩
    · rw [hrun, hmap]
      rfl
    · rw [Archive.copyFile, hfile]
  | some stored =>
    rw [hfile, Option.map_some, Option.map_eq_some_iff] at hmap
    obtain ⟨file, rfl, heq⟩ := hmap
    have hcopy : archive.copyFile source target
        = archive.addFile (Handle.toNat (Handle.root : ι)) target file.source := by
      rw [Archive.copyFile, hfile, hroot]
      dsimp only
      rw [← (Prod.mk.inj heq).2]
    rw [hcopy]
    exact (ends_addFile hnext h Handle.root target file.source).of_run_eq (hrun _)

omit hnext in
variable (next) in
/-- From a start that is gone no directory is made: the first step traps. -/
theorem run_ensureDirectory_of_none {start : ι} (hstart : arena.directories[start]? = none)
    (path : String) :
    (archive.ensureDirectory (Handle.toNat start) path = .ok (archive, Handle.toNat start) ∧
      run (ensureDirectory next start path) arena = some (.ok start, arena)) ∨
    (archive.ensureDirectory (Handle.toNat start) path
        = .error (.unknownDirectory (Handle.toNat start)) ∧
      run (ensureDirectory next start path) arena = some (.error .trap, arena)) := by
  rw [Archive.ensureDirectory, h.getElem?_eq_none_iff.mp hstart, ensureDirectory]
  cases Path.segments path with
  | nil => exact Or.inl ⟨rfl, rfl⟩
  | cons segment segments =>
    refine Or.inr ⟨rfl, ?_⟩
    rw [enterAll, List.foldlM_cons]
    exact run_bind_of_error (run_bind_of_error (run_node_of_none hstart))

/-- A directory is made as it is in the tree.  Where it cannot be, because the start is gone, the
    arena traps. -/
theorem ends_ensureDirectory (start : ι) (path : String) :
    Ends (ensureDirectory next start path) arena
      ((∃ after number, archive.ensureDirectory (Handle.toNat start) path = .ok (after, number) ∧
        Handle.RunsOut next after.nextId) ∨
        archive.ensureDirectory (Handle.toNat start) path
          = .error (.unknownDirectory (Handle.toNat start)))
      (fun last final => ∃ after,
        archive.ensureDirectory (Handle.toNat start) path = .ok (after, Handle.toNat last) ∧
          final.Represents after)
      fun _ _ => False := by
  cases hstart : arena.directories[start]? with
  | none =>
    rcases run_ensureDirectory_of_none next h hstart path with
      ⟨hmade, hrun⟩ | ⟨hmissing, hrun⟩
    · exact .answer start arena hrun ⟨archive, hmade, h⟩
    · exact .trap arena hrun (Or.inr hmissing)
  | some node =>
    obtain ⟨location, hid, -⟩ := h.exists_location hstart
    obtain ⟨after, number, hrun⟩ := exists_ensureDirectory h.wellFormed hid path
    obtain ⟨rfl, hnumber⟩ := (ensureDirectory_eq_ok_iff h.wellFormed hid).mp hrun
    refine (ends_ensureDirectory_at hnext h hid path).mono
      (fun hout => Or.inl ⟨_, _, hrun, hout⟩) ?_ fun _ _ => False.elim
    rintro last final ⟨hfinal, hlast⟩
    rw [enterAll_snd] at hlast
    exact ⟨_, (ensureDirectory_eq_ok_iff h.wellFormed hid).mpr ⟨rfl, hlast⟩, hfinal⟩

end Files

end Arena

end HashArchive
