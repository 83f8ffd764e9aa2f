/-
  HashArchive.Proofs.Archive.Identity

  The numbers of directories over time.  As long as a directory is there it keeps its
  number, its place and its name.  Every new directory takes a number above all that have
  been used, so a number that is given up leads nowhere from then on (`ids_stable`).
-/
import Mathlib
import HashArchive.Proofs.Archive.Links

namespace HashArchive

/-- Siblings stand in order at every level, so they do below any directory. -/
theorem Tree.ordered_of_descend? {tree found : Tree Directory} {location : Location}
    (h : tree.below.Ordered) (hfound : tree.descend? location = some found) :
    found.below.Ordered := by
  induction location generalizing tree with
  | nil =>
    obtain rfl := Option.some.inj hfound
    exact h
  | cons name names ih =>
    rw [descend?_cons, Option.bind_eq_some_iff] at hfound
    obtain ⟨child, hchild, hfound⟩ := hfound
    exact ih (h.below_of_mem_trees (Forest.mem_trees_of_child? hchild)) hfound

namespace Archive

/-! ## Numbers at locations -/

/-- The number of the directory at a location. -/
def idAt (archive : Archive) (location : Location) : Option DirectoryId :=
  (archive.directory? location).map (·.id)

section IdAt

variable {archive : Archive} {location : Location} {id : DirectoryId} {place : Place}

theorem live_iff_idAt : archive.Live location ↔ (archive.idAt location).isSome := by
  rw [live_iff, idAt, Option.isSome_map]

theorem live_of_idAt (hid : archive.idAt location = some id) : archive.Live location :=
  live_iff_idAt.mpr (Option.isSome_of_eq_some hid)

theorem exists_idAt_of_live (hlive : archive.Live location) :
    ∃ id, archive.idAt location = some id :=
  Option.isSome_iff_exists.mp (live_iff_idAt.mp hlive)

theorem idAt_of_place? (h : archive.WellFormed) (hplace : archive.place? id = some place) :
    archive.idAt place.location = some id := by
  obtain ⟨hmem, rfl⟩ := (place?_eq_some_iff h).mp hplace
  have hfound : archive.root.descend? place.location = some place.tree := (mem_places_iff h).mp hmem
  rw [idAt, directory?, Tree.directory?, hfound]
  rfl

theorem idAt_of_mem_places (h : archive.WellFormed) (hmem : place ∈ archive.places) :
    archive.idAt place.location = some place.id :=
  idAt_of_place? h (place?_id h hmem)

/-- A place is found by the number of its location. -/
theorem place?_of_idAt (h : archive.WellFormed) (hmem : place ∈ archive.places)
    (hid : archive.idAt place.location = some id) : archive.place? id = some place := by
  rw [idAt_of_mem_places h hmem, Option.some.injEq] at hid
  rw [← hid]
  exact place?_id h hmem

theorem exists_place?_of_idAt (h : archive.WellFormed) (hid : archive.idAt location = some id) :
    ∃ tree, archive.place? id = some ⟨location, tree⟩ := by
  obtain ⟨directory, hdirectory, rfl⟩ := Option.map_eq_some_iff.mp hid
  obtain ⟨tree, htree, rfl⟩ := Option.map_eq_some_iff.mp hdirectory
  exact ⟨tree, (place?_eq_some_iff h).mpr ⟨(mem_places_iff h).mpr htree, rfl⟩⟩

theorem parent?_eq_idAt (archive : Archive) (place : Place) :
    archive.parent? place
      = if place.location = [] then none else archive.idAt place.location.dropLast := by
  rw [parent?, idAt, directory?, Tree.directory?, Option.map_map]
  rfl

theorem subdirectory?_eq_idAt (h : archive.WellFormed) (hplace : archive.place? id = some place)
    (name : String) : place.subdirectory? name = archive.idAt (place.location ++ [name]) := by
  have hfound : archive.root.descend? place.location = some place.tree :=
    (mem_places_iff h).mp ((place?_eq_some_iff h).mp hplace).1
  rw [Place.subdirectory?, idAt, directory?, Tree.directory?, Tree.descend?_append, hfound,
    Option.bind_some, Option.map_map]
  rfl

/-- A directory that is removed takes along what is below it, and nothing else goes. -/
theorem directory?_removeBelow (h : archive.WellFormed) (location : Location) (name : String)
    (other : Location) :
    (archive.root.update (Tree.removeBelow name) location).directory? other
      = if location ++ [name] <+: other then none else archive.directory? other := by
  by_cases hpre : location <+: other
  · obtain ⟨more, rfl⟩ := hpre
    have hself := Tree.descend?_update_append (f := Tree.removeBelow name) (fun _ => rfl)
      archive.root location more
    unfold Tree.directory? directory? Tree.directory?
    rw [hself, Tree.descend?_append]
    cases hfound : archive.root.descend? location with
    | none => simp
    | some found =>
      cases more with
      | nil =>
        have hnot : ¬ location ++ [name] <+: location := fun hpre => by simpa using hpre.length_le
        simp [Tree.removeBelow, hnot]
      | cons first rest =>
        have hchild := Forest.child?_remove (Tree.ordered_of_descend? h.ordered hfound).nodup_names
          name first
        rw [Option.map_some, Option.bind_some, Tree.descend?_cons, Tree.removeBelow, hchild,
          Option.bind_some, Tree.descend?_cons]
        by_cases hname : first = name
        · simp [hname, List.prefix_append_right_inj]
        · simp [hname, Ne.symm hname, List.prefix_append_right_inj]
  · have hnot : ¬ location ++ [name] <+: other := fun hdeeper =>
      hpre ((List.prefix_append _ _).trans hdeeper)
    rw [if_neg hnot]
    exact Tree.directory?_update_of_not_prefix (f := Tree.removeBelow name) (fun _ => rfl)
      archive.root hpre

theorem idAt_removeBelow (h : archive.WellFormed) (location : Location) (name : String)
    (other : Location) :
    idAt { archive with root := archive.root.update (Tree.removeBelow name) location } other
      = if location ++ [name] <+: other then none else archive.idAt other := by
  rw [idAt, directory?, directory?_removeBelow h]
  split
  · rfl
  · rfl

theorem idAt_updateRoot {g : Directory → Directory}
    (hname : ∀ directory, (g directory).name = directory.name)
    (hid : ∀ directory, (g directory).id = directory.id) (location other : Location) :
    idAt { archive with root := archive.root.update (Tree.updateRoot g) location } other
      = archive.idAt other := by
  rw [idAt, directory?, directory?_updateRoot hname]
  split
  · next heq =>
    rw [heq, idAt, Option.map_map]
    exact congrArg (Option.map · _) (funext hid)
  · rfl

theorem idAt_addDirectory {name : String} (hlive : archive.Live location)
    (hmissing : ¬ archive.Live (location ++ [name])) (other : Location) :
    (archive.addDirectory location name).idAt other
      = if other = location ++ [name] then some archive.nextId else archive.idAt other := by
  rw [idAt, directory?_addDirectory hlive hmissing]
  split
  · rfl
  · rfl

end IdAt

/-! ## Numbers over time -/

/-- A directory whose number was in use is where it was, and so are those above it. -/
def KeepsOldIds (archive after : Archive) : Prop :=
  ∀ location id, after.idAt location = some id → id < archive.nextId →
    ∀ above, above <+: location → after.idAt above = archive.idAt above

theorem keepsOldIds_of_eq {archive after : Archive}
    (h : ∀ location, after.idAt location = archive.idAt location) : archive.KeepsOldIds after :=
  fun _ _ _ _ above _ => h above

/-- One change gives no number that was in use before. -/
theorem keepsOldIds_of_change {archive after : Archive} (hchange : Change archive after)
    (h : archive.WellFormed) :
    archive.nextId ≤ after.nextId ∧ archive.KeepsOldIds after := by
  cases hchange with
  | rename name =>
    refine ⟨le_refl _, keepsOldIds_of_eq fun location => ?_⟩
    cases location with
    | nil => rfl
    | cons first rest => rfl
  | settings policy => exact ⟨le_refl _, keepsOldIds_of_eq fun _ => rfl⟩
  | @addDirectory location name live missing plain =>
    refine ⟨Nat.le_succ _, fun other id hid hold above hpre => ?_⟩
    have hnew : ∀ location', location' ≠ location ++ [name] →
        (archive.addDirectory location name).idAt location' = archive.idAt location' :=
      fun location' hne => (idAt_addDirectory live missing location').trans (if_neg hne)
    -- The new directory has the next number, and there is nothing below it.
    have hother : other ≠ location ++ [name] := by
      rintro rfl
      rw [idAt_addDirectory live missing, if_pos rfl, Option.some.injEq] at hid
      exact lt_irrefl _ (hid ▸ hold)
    apply hnew
    rintro rfl
    obtain ⟨more, rfl⟩ := hpre
    rw [hnew _ hother] at hid
    exact missing (Tree.isSome_of_descend?_append (live_of_idAt hid))
  | @putFile location entry live sound =>
    exact ⟨le_refl _, keepsOldIds_of_eq fun other =>
      idAt_updateRoot (g := (·.put entry)) (fun _ => rfl) (fun _ => rfl) _ other⟩
  | removeFile location key =>
    exact ⟨le_refl _, keepsOldIds_of_eq fun other =>
      idAt_updateRoot (g := (·.remove key)) (fun _ => rfl) (fun _ => rfl) _ other⟩
  | removeDirectory location name =>
    refine ⟨le_refl _, fun other id hid _ above hpre => ?_⟩
    rw [idAt_removeBelow h] at hid ⊢
    split at hid
    · cases hid
    · next hnot => exact if_neg fun hdeeper => hnot (hdeeper.trans hpre)
  | updateSource address f =>
    exact ⟨le_refl _, keepsOldIds_of_eq fun other =>
      idAt_updateRoot (g := (·.updateSource address.key f)) (fun _ => rfl) (fun _ => rfl) _ other⟩

/-- Any number of changes give no number that was in use before. -/
theorem Evolves.keepsOldIds {archive after : Archive} (hevolves : Evolves archive after)
    (h : archive.WellFormed) :
    archive.nextId ≤ after.nextId ∧ archive.KeepsOldIds after := by
  induction hevolves with
  | refl => exact ⟨le_refl _, keepsOldIds_of_eq fun _ => rfl⟩
  | @tail middle after hbefore hchange ih =>
    obtain ⟨hle, hkeeps⟩ := ih
    obtain ⟨hle', hkeeps'⟩ := keepsOldIds_of_change hchange (Evolves.wellFormed hbefore h)
    refine ⟨hle.trans hle', fun location id hid hold above hpre => ?_⟩
    have hstep := hkeeps' location id hid (lt_of_lt_of_le hold hle)
    have hmiddle : middle.idAt location = some id :=
      (hstep location (List.prefix_refl _)).symm.trans hid
    exact (hstep above hpre).trans (hkeeps location id hmiddle hold above hpre)

/-! ## Runs of operations -/

/-- What an operation that may change an archive makes of it.  An operation that fails leaves
    the archive as it was, unless it is a merge, which may stop on its way. -/
inductive Operation : Archive → Archive → Prop
  | setName (archive : Archive) (name : String) : Operation archive (archive.setName name)
  | setPolicy (archive : Archive) (policy : Policy) : Operation archive { archive with policy }
  | ensureDirectory {archive after : Archive} {start id : DirectoryId} {path : String}
      (run : archive.ensureDirectory start path = .ok (after, id)) : Operation archive after
  | addFile {archive after : Archive} {start : DirectoryId} {path : String} {source : Source}
      {address : FileAddress} (run : archive.addFile start path source = .ok (after, address)) :
      Operation archive after
  | copyFile {archive after : Archive} {source target : String} {address : FileAddress}
      (run : archive.copyFile source target = .ok (after, address)) : Operation archive after
  | removeFile (archive : Archive) (start : DirectoryId) (path : String) :
      Operation archive (archive.removeFile start path).1
  | removeDirectory (archive : Archive) (start : DirectoryId) (path : String) :
      Operation archive (archive.removeDirectory start path).1
  | merge (archive : Archive) {source : Archive} (other : Reachable source) (streams : Streams)
      (keepDuplicates : Bool) : Operation archive (archive.merge source streams keepDuplicates).1
  | setSource (archive : Archive) (address : FileAddress) (source : Source) :
      Operation archive (archive.updateSource address fun _ => source)
  -- Writing and unpacking an archive, and merging from it, read its files.
  | settle (archive : Archive) (streams : Streams) (files : List StoredFile) :
      Operation archive (archive.settle streams files)

/-- One archive becomes another by any number of operations. -/
def Run : Archive → Archive → Prop := Relation.ReflTransGen Operation

section Runs

variable {archive after : Archive}

theorem Operation.reachable (h : Operation archive after) (hbefore : Reachable archive) :
    Reachable after := by
  cases h with
  | setName name => exact .setName hbefore name
  | setPolicy policy => exact .setPolicy hbefore policy
  | ensureDirectory run => exact .ensureDirectory hbefore run
  | addFile run => exact .addFile hbefore run
  | copyFile run => exact .copyFile hbefore run
  | removeFile start path => exact .removeFile hbefore start path
  | removeDirectory start path => exact .removeDirectory hbefore start path
  | merge other streams keepDuplicates => exact .merge hbefore other streams keepDuplicates
  | setSource address source => exact .setSource hbefore address source
  | settle streams files => exact .settle hbefore streams files

theorem Operation.evolves (h : Operation archive after) (hbefore : archive.WellFormed) :
    Evolves archive after := by
  cases h with
  | setName name => exact (Change.rename archive name).evolves
  | setPolicy policy => exact (Change.settings archive policy).evolves
  | ensureDirectory run => exact evolves_ensureDirectory hbefore run
  | addFile run => exact evolves_addFile hbefore run
  | copyFile run => exact evolves_copyFile hbefore run
  | removeFile start path => exact evolves_removeFile archive start path
  | removeDirectory start path => exact evolves_removeDirectory archive start path
  | merge other streams keepDuplicates =>
    exact evolves_merge other.wellFormed archive streams keepDuplicates
  | setSource address source => exact (Change.updateSource archive address _).evolves
  | settle streams files => exact evolves_settle archive streams files

theorem Run.reachable (h : Run archive after) (hbefore : Reachable archive) :
    Reachable after := by
  induction h with
  | refl => exact hbefore
  | tail _ hstep ih => exact hstep.reachable ih

theorem Run.evolves (h : Run archive after) (hbefore : Reachable archive) :
    Evolves archive after := by
  induction h with
  | refl => exact Evolves.refl archive
  | tail hrun hstep ih =>
    exact ih.trans (hstep.evolves (Run.reachable hrun hbefore).wellFormed)

/-- A directory whose number was in use before a run is where it was. -/
theorem Run.idAt_eq (h : Run archive after) (hbefore : Reachable archive) {id : DirectoryId}
    (hold : id < archive.nextId) {place : Place} (hplace : after.place? id = some place)
    {above : Location} (hpre : above <+: place.location) :
    archive.idAt above = after.idAt above := by
  have hkeeps := ((h.evolves hbefore).keepsOldIds hbefore.wellFormed).2
  have hid := idAt_of_place? (h.reachable hbefore).wellFormed hplace
  exact (hkeeps place.location id hid hold above hpre).symm

theorem Run.isSome_place? (h : Run archive after) (hbefore : Reachable archive)
    {id : DirectoryId} (hold : id < archive.nextId) (hplace : (after.place? id).isSome) :
    (archive.place? id).isSome := by
  obtain ⟨place, hplace⟩ := Option.isSome_iff_exists.mp hplace
  have hid := h.idAt_eq hbefore hold hplace (List.prefix_refl _)
  rw [idAt_of_place? (h.reachable hbefore).wellFormed hplace] at hid
  obtain ⟨tree, htree⟩ := exists_place?_of_idAt hbefore.wellFormed hid
  exact Option.isSome_of_eq_some htree

theorem Run.nextId_le (h : Run archive after) (hbefore : Reachable archive) :
    archive.nextId ≤ after.nextId :=
  ((h.evolves hbefore).keepsOldIds hbefore.wellFormed).1

end Runs

theorem lt_nextId_of_place? {archive : Archive} (h : archive.WellFormed) {id : DirectoryId}
    (hplace : (archive.place? id).isSome) : id < archive.nextId := by
  obtain ⟨place, hplace⟩ := Option.isSome_iff_exists.mp hplace
  obtain ⟨hmem, rfl⟩ := (place?_eq_some_iff h).mp hplace
  exact h.bounded _ (label_mem_of_mem_places hmem)

/-! ## The main statement -/

/-- Nothing is found and nothing is changed from a number, whatever the path is. -/
structure Inert (archive : Archive) (id : DirectoryId) : Prop where
  findDirectory : ∀ path, archive.findDirectory? id path = none
  locate : ∀ path, archive.locate? id path = none
  findFile : ∀ path, archive.findFile? id path = none
  removeFile : ∀ path, archive.removeFile id path = (archive, false)
  removeDirectory : ∀ path, archive.removeDirectory id path = (archive, false)
  addFile : ∀ path source, archive.addFile id path source
    = .error (if (Path.file? path).isSome then .unknownDirectory id else .noFileName path)

theorem inert_of_place?_eq_none {archive : Archive} {id : DirectoryId}
    (h : archive.place? id = none) : archive.Inert id := by
  have hdirectory : ∀ path, archive.findDirectory? id path = none := by
    intro path
    rw [findDirectory?, h]
    rfl
  have hlocate : ∀ path, archive.locate? id path = none := by
    intro path
    rw [locate?, h]
    cases Path.file? path with
    | none => rfl
    | some file => rfl
  refine ⟨hdirectory, hlocate, fun path => ?_, fun path => ?_, fun path => ?_,
    fun path source => ?_⟩
  · rw [findFile?, hlocate]
    rfl
  · rw [removeFile, hlocate]
  · rw [removeDirectory, hdirectory]
  · rw [addFile, h]
    cases Path.file? path with
    | none => rfl
    | some file => rfl

/-- What the numbers of directories are at three moments of a run, one after another. -/
structure IdsStable (first middle last : Archive) : Prop where
  /-- A directory that is there at the first and at the last moment is there in between, always
      at the same place, in the same directory, and under the same name if it is not the root. -/
  same : ∀ {id before after}, first.place? id = some before → last.place? id = some after →
    (∃ between, middle.place? id = some between ∧ between.location = before.location) ∧
      after.location = before.location ∧ last.parent? after = first.parent? before ∧
      (id ≠ rootId → after.name = before.name)
  /-- One that is gone does not come back, and its number is of no use any more. -/
  gone : ∀ {id}, (first.place? id).isSome → middle.place? id = none →
    last.place? id = none ∧ last.Inert id
  /-- One that comes new has a number above those of all that have been there. -/
  fresh : ∀ {id other}, (first.place? other).isSome → middle.place? id = none →
    (last.place? id).isSome → other < id

/-- Whatever operations are run, numbers of directories are stable and are never used again. -/
theorem ids_stable {first middle last : Archive} (h : Reachable first)
    (hfirst : Run first middle) (hlast : Run middle last) : IdsStable first middle last := by
  have hmiddle := hfirst.reachable h
  have hwhole : Run first last := Relation.ReflTransGen.trans hfirst hlast
  have hformed := h.wellFormed
  have hformed' := (hwhole.reachable h).wellFormed
  have hold : ∀ {id}, (first.place? id).isSome → id < first.nextId :=
    lt_nextId_of_place? hformed
  have hgone : ∀ {id}, (first.place? id).isSome → middle.place? id = none →
      last.place? id = none := by
    intro id hthere hnone
    by_contra hback
    have hsome := hlast.isSome_place? hmiddle
      (lt_of_lt_of_le (hold hthere) (hfirst.nextId_le h)) (Option.isSome_iff_ne_none.mpr hback)
    rw [hnone] at hsome
    cases hsome
  constructor
  · intro id before after hbefore hafter
    have hlt := hold (Option.isSome_of_eq_some hbefore)
    have hid := hwhole.idAt_eq h hlt hafter (List.prefix_refl _)
    rw [idAt_of_place? hformed' hafter] at hid
    obtain ⟨tree, htree⟩ := exists_place?_of_idAt hformed hid
    obtain rfl : before = ⟨after.location, tree⟩ := Option.some.inj (hbefore.symm.trans htree)
    refine ⟨?_, rfl, ?_, fun hne => ?_⟩
    · have hid := hlast.idAt_eq hmiddle (lt_of_lt_of_le hlt (hfirst.nextId_le h)) hafter
        (List.prefix_refl _)
      rw [idAt_of_place? hformed' hafter] at hid
      obtain ⟨between, hbetween⟩ := exists_place?_of_idAt hmiddle.wellFormed hid
      exact ⟨_, hbetween, rfl⟩
    · rw [parent?_eq_idAt, parent?_eq_idAt,
        hwhole.idAt_eq h hlt hafter (List.dropLast_prefix _)]
    · obtain ⟨hmem, -⟩ := (place?_eq_some_iff hformed).mp hbefore
      obtain ⟨hmem', rfl⟩ := (place?_eq_some_iff hformed').mp hafter
      obtain ⟨location, tree'⟩ := after
      rcases List.eq_nil_or_concat' location with rfl | ⟨above, name, rfl⟩
      · exact absurd ((location_eq_nil_iff hformed' hmem').mp rfl) hne
      · exact (name_of_mem_places hformed' hmem').trans (name_of_mem_places hformed hmem).symm
  · intro id hthere hnone
    have hlost := hgone hthere hnone
    exact ⟨hlost, inert_of_place?_eq_none hlost⟩
  · intro id other hthere hnone hnew
    have hother : other < middle.nextId := lt_of_lt_of_le (hold hthere) (hfirst.nextId_le h)
    by_contra hle
    have hsome := hlast.isSome_place? hmiddle (lt_of_le_of_lt (not_lt.mp hle) hother) hnew
    rw [hnone] at hsome
    cases hsome

/-- The archive with two directories after the inner one has been removed. -/
def pruned : Archive where
  root := ⟨{ id := rootId, name := "root" }, .cons { id := 1, name := "a" } .nil .nil⟩
  nextId := 3

/-- The same after a directory has been added where the other one was. -/
def regrown : Archive where
  root := ⟨{ id := rootId, name := "root" },
    .cons { id := 1, name := "a" } (.cons { id := 3, name := "b" } .nil .nil) .nil⟩
  nextId := 4

/-- A directory that is added in the place of one that was removed does not get its number. -/
theorem ids_stable_regrown :
    nested.removeDirectory rootId "a/b" = (pruned, true) ∧
      pruned.ensureDirectory rootId "a/b" = .ok (regrown, 3) ∧
      (nested.place? 2).isSome ∧ pruned.place? 2 = none ∧
      IdsStable nested pruned regrown ∧ regrown.Inert 2 := by
  have hnested : (new "root").ensureDirectory rootId "a/b" = .ok (nested, 2) := by rfl
  have hremove : nested.removeDirectory rootId "a/b" = (pruned, true) := by decide +kernel
  have hensure : pruned.ensureDirectory rootId "a/b" = .ok (regrown, 3) := by rfl
  have hfirst : Operation nested pruned := by
    have hstep := Operation.removeDirectory nested rootId "a/b"
    rwa [hremove] at hstep
  have hstable : IdsStable nested pruned regrown :=
    ids_stable (.ensureDirectory (.new "root") hnested) (Relation.ReflTransGen.single hfirst)
      (Relation.ReflTransGen.single (.ensureDirectory hensure))
  have hthere : (nested.place? 2).isSome := by decide +kernel
  have hnone : pruned.place? 2 = none := by decide +kernel
  exact ⟨hremove, hensure, hthere, hnone, hstable, (hstable.gone hthere hnone).2⟩

end Archive

end HashArchive
