/-
  HashArchive.Proofs.Archive.Finding

  The walk that finds a directory and the walk that makes one.  Both take the same steps; the
  one stops where a directory is missing, and the other adds it (`walk?_eq_some_iff`,
  `enterAll_of_live`).  So a directory that has been made is found, one that is found is not
  made again, and two paths in a row are walked like one (`directories_agree`).
-/
import Mathlib
import HashArchive.Proofs.Archive.Views

namespace HashArchive.Archive

/-! ## Walks among the directories there are -/

section Walks

variable {archive : Archive} {location last : Location} {segments : List Segment}

theorem step?_eq_some_iff (hlive : archive.Live location) {segment : Segment} {next : Location} :
    archive.step? location segment = some next ↔
      next = segment.next location ∧ archive.Live next := by
  cases segment with
  | parent =>
    rw [step?, Option.some.injEq, eq_comm]
    exact (and_iff_left_of_imp fun heq => heq ▸ live_dropLast hlive).symm
  | name name =>
    by_cases hthere : archive.Live (location ++ [name])
    · have hstep : archive.step? location (.name name) = some (location ++ [name]) := if_pos hthere
      rw [hstep, Option.some.injEq, eq_comm]
      exact (and_iff_left_of_imp fun heq => heq ▸ hthere).symm
    · have hstep : archive.step? location (.name name) = none := if_neg hthere
      rw [hstep]
      refine iff_of_false nofun ?_
      rintro ⟨rfl, hnext⟩
      exact hthere hnext

/-- A walk that adds nothing goes through directories only. -/
theorem walk?_eq_some_iff (hlive : archive.Live location) :
    archive.walk? location segments = some last ↔
      last = segments.foldl Segment.next location ∧
        ∀ other ∈ passed location segments, archive.Live other := by
  induction segments generalizing location with
  | nil =>
    have hwalk : archive.walk? location [] = some location := rfl
    have hpassed : passed location [] = [location] := rfl
    rw [hwalk, hpassed, List.forall_mem_singleton, Option.some.injEq, eq_comm]
    exact (and_iff_left hlive).symm
  | cons segment segments ih =>
    have hwalk : archive.walk? location (segment :: segments)
        = (archive.step? location segment).bind (archive.walk? · segments) := rfl
    rw [hwalk, Option.bind_eq_some_iff, passed_cons, List.foldl_cons, List.forall_mem_cons]
    constructor
    · rintro ⟨next, hstep, hrest⟩
      obtain ⟨rfl, hnext⟩ := (step?_eq_some_iff hlive).mp hstep
      obtain ⟨hlast, hall⟩ := (ih hnext).mp hrest
      exact ⟨hlast, hlive, hall⟩
    · rintro ⟨hlast, -, hall⟩
      have hnext := hall _ (mem_passed_self _ _)
      exact ⟨_, (step?_eq_some_iff hlive).mpr ⟨rfl, hnext⟩, (ih hnext).mpr ⟨hlast, hall⟩⟩

/-- A walk ends in a directory. -/
theorem live_of_walk? (hlive : archive.Live location)
    (hwalk : archive.walk? location segments = some last) : archive.Live last := by
  obtain ⟨rfl, hall⟩ := (walk?_eq_some_iff hlive).mp hwalk
  exact hall _ (foldl_mem_passed location segments)

theorem walk?_append (archive : Archive) (location : Location) (front back : List Segment) :
    archive.walk? location (front ++ back)
      = (archive.walk? location front).bind (archive.walk? · back) := List.foldlM_append

theorem enter_of_live {segment : Segment} (h : archive.Live (segment.next location)) :
    archive.enter location segment = (archive, segment.next location) := by
  cases segment with
  | parent => rfl
  | name name => exact enter_name_of_live h

/-- Where there are directories all along, none is added. -/
theorem enterAll_of_live (h : ∀ other ∈ passed location segments, archive.Live other) :
    archive.enterAll location segments = (archive, segments.foldl Segment.next location) := by
  induction segments generalizing location with
  | nil => rfl
  | cons segment segments ih =>
    rw [passed_cons, List.forall_mem_cons] at h
    have hstep := enter_of_live (h.2 _ (mem_passed_self _ _))
    have hwalk : archive.enterAll location (segment :: segments)
        = (archive.enter location segment).1.enterAll (archive.enter location segment).2 segments :=
      rfl
    rw [hwalk, hstep]
    exact ih h.2

theorem enterAll_append (archive : Archive) (location : Location) (front back : List Segment) :
    archive.enterAll location (front ++ back)
      = (archive.enterAll location front).1.enterAll (archive.enterAll location front).2 back :=
  List.foldl_append

end Walks

/-! ## Paths from a directory -/

section Paths

variable {archive after : Archive} {location : Location} {start id : DirectoryId} {path : String}
  {place : Place}

theorem findDirectory?_of_place? (hstart : archive.place? start = some place) (path : String) :
    archive.findDirectory? start path
      = (archive.walk? place.location (Path.segments path)).bind fun last =>
          (archive.descend? last).map (Place.mk last) := by
  rw [findDirectory?, hstart]
  simp only [Option.bind_eq_bind, Option.bind_some, Option.pure_def, Option.map_eq_bind]
  rfl

/-- A directory is found where the steps lead to it through directories. -/
theorem findDirectory?_eq_some_iff (h : archive.WellFormed)
    (hstart : archive.idAt location = some start) :
    archive.findDirectory? start path = some place ↔
      (∀ other ∈ passed location (Path.segments path), archive.Live other) ∧
        place ∈ archive.places ∧
        place.location = (Path.segments path).foldl Segment.next location := by
  obtain ⟨tree, hplace⟩ := exists_place?_of_idAt h hstart
  rw [findDirectory?_of_place? hplace, Option.bind_eq_some_iff, mem_places_iff h]
  constructor
  · rintro ⟨last, hwalk, hfound⟩
    obtain ⟨rfl, hall⟩ := (walk?_eq_some_iff (live_of_idAt hstart)).mp hwalk
    obtain ⟨found, hdescend, rfl⟩ := Option.map_eq_some_iff.mp hfound
    exact ⟨hall, hdescend, rfl⟩
  · rintro ⟨hall, hfound, hlocation⟩
    refine ⟨place.location, (walk?_eq_some_iff (live_of_idAt hstart)).mpr ⟨hlocation, hall⟩, ?_⟩
    rw [hfound]
    rfl

/-- What is found is a directory of the archive. -/
theorem place?_of_findDirectory? (h : archive.WellFormed)
    (hfound : archive.findDirectory? start path = some place) :
    archive.place? place.id = some place := by
  cases hstart : archive.place? start with
  | none =>
    rw [(inert_of_place?_eq_none hstart).findDirectory] at hfound
    cases hfound
  | some first =>
    have hid := idAt_of_place? h hstart
    exact place?_id h ((findDirectory?_eq_some_iff h hid).mp hfound).2.1

/-- From a directory each path leads to one. -/
theorem ensureDirectory_eq_ok_iff (h : archive.WellFormed)
    (hstart : archive.idAt location = some start) :
    archive.ensureDirectory start path = .ok (after, id) ↔
      after = (archive.enterAll location (Path.segments path)).1 ∧
        after.idAt ((Path.segments path).foldl Segment.next location) = some id := by
  obtain ⟨tree, hplace⟩ := exists_place?_of_idAt h hstart
  have hend := (grows_enterAll (Path.segments path) (live_of_idAt hstart)
    fun name => Path.plain_of_mem_segments).2
  obtain ⟨found, hfound⟩ := Option.isSome_iff_exists.mp hend
  have hrun : archive.ensureDirectory start path
      = .ok ((archive.enterAll location (Path.segments path)).1, found.label.id) := by
    rw [ensureDirectory, hplace]
    dsimp only
    rw [hfound]
  have hid : (archive.enterAll location (Path.segments path)).1.idAt
      ((Path.segments path).foldl Segment.next location) = some found.label.id := by
    rw [← enterAll_snd archive, idAt, directory?, Tree.directory?, ← descend?, hfound]
    rfl
  rw [hrun, Except.ok.injEq, Prod.mk.injEq, eq_comm]
  refine and_congr_right ?_
  rintro rfl
  rw [hid, Option.some.injEq]

theorem exists_ensureDirectory (h : archive.WellFormed)
    (hstart : archive.idAt location = some start) (path : String) :
    ∃ after id, archive.ensureDirectory start path = .ok (after, id) := by
  have hend := (grows_enterAll (Path.segments path) (live_of_idAt hstart)
    fun name => Path.plain_of_mem_segments).2
  rw [enterAll_snd] at hend
  obtain ⟨id, hid⟩ := exists_idAt_of_live hend
  exact ⟨_, id, (ensureDirectory_eq_ok_iff h hstart).mpr ⟨rfl, hid⟩⟩

/-- A directory that is found is not made again. -/
theorem ensureDirectory_of_findDirectory? (h : archive.WellFormed)
    (hfound : archive.findDirectory? start path = some place) :
    archive.ensureDirectory start path = .ok (archive, place.id) := by
  cases hplace : archive.place? start with
  | none =>
    rw [(inert_of_place?_eq_none hplace).findDirectory] at hfound
    cases hfound
  | some first =>
    have hstart := idAt_of_place? h hplace
    obtain ⟨hall, hmem, hlocation⟩ := (findDirectory?_eq_some_iff h hstart).mp hfound
    refine (ensureDirectory_eq_ok_iff h hstart).mpr ⟨?_, ?_⟩
    · rw [enterAll_of_live hall]
    · rw [← hlocation]
      exact idAt_of_mem_places h hmem

/-- A directory that has been made is found. -/
theorem map_id_findDirectory?_of_ensureDirectory (h : archive.WellFormed)
    (hstart : archive.idAt location = some start)
    (hrun : archive.ensureDirectory start path = .ok (after, id)) :
    (after.findDirectory? start path).map Place.id = some id := by
  have hformed := (evolves_ensureDirectory h hrun).wellFormed h
  obtain ⟨rfl, hid⟩ := (ensureDirectory_eq_ok_iff h hstart).mp hrun
  have hlive := live_of_idAt hstart
  have hplain : ∀ name, .name name ∈ Path.segments path → Path.Plain name :=
    fun name => Path.plain_of_mem_segments
  have hstart' := ((extends_enterAll hlive hplain).ids location hlive).trans hstart
  obtain ⟨tree, hplace⟩ := exists_place?_of_idAt hformed hid
  obtain ⟨hmem, hplaceId⟩ := (place?_eq_some_iff hformed).mp hplace
  have hfound := (findDirectory?_eq_some_iff hformed hstart').mpr
    ⟨fun other hpassed => (live_held_enterAll hlive hplain other).1.mpr (Or.inl hpassed), hmem, rfl⟩
  rw [hfound]
  exact congrArg some hplaceId

/-! ## Two paths in a row -/

theorem findDirectory?_append (h : archive.WellFormed) {separator : Char}
    (hseparator : Path.isSeparator separator = true) (start : DirectoryId) (path rest : String) :
    archive.findDirectory? start (path ++ String.singleton separator ++ rest)
      = (archive.findDirectory? start path).bind fun place =>
          archive.findDirectory? place.id rest := by
  cases hstart : archive.place? start with
  | none =>
    have hinert := inert_of_place?_eq_none hstart
    rw [hinert.findDirectory, hinert.findDirectory]
    rfl
  | some first =>
    have hlive := live_of_idAt (idAt_of_place? h hstart)
    rw [findDirectory?_of_place? hstart, findDirectory?_of_place? hstart,
      Path.segments_append hseparator, walk?_append]
    cases hwalk : archive.walk? first.location (Path.segments path) with
    | none => rfl
    | some middle =>
      -- The first walk ends in a directory, and the second one goes on from there.
      obtain ⟨tree, htree⟩ := Option.isSome_iff_exists.mp (live_of_walk? hlive hwalk)
      have hmem : (⟨middle, tree⟩ : Place) ∈ archive.places := (mem_places_iff h).mpr htree
      rw [Option.bind_some, Option.bind_some, htree, Option.map_some, Option.bind_some,
        findDirectory?_of_place? (place?_id h hmem)]

theorem ensureDirectory_append (h : archive.WellFormed) {separator : Char}
    (hseparator : Path.isSeparator separator = true) (start : DirectoryId) (path rest : String) :
    archive.ensureDirectory start (path ++ String.singleton separator ++ rest)
      = archive.ensureDirectory start path >>= fun (after, id) =>
          after.ensureDirectory id rest := by
  cases hplace : archive.place? start with
  | none =>
    rw [ensureDirectory, ensureDirectory, hplace, Path.segments_append hseparator]
    cases Path.segments path with
    | nil =>
      rw [List.nil_append, Outcome.ok_bind]
      dsimp only
      rw [ensureDirectory, hplace]
    | cons segment segments => rfl
  | some first =>
    have hstart := idAt_of_place? h hplace
    obtain ⟨after, id, hrun⟩ := exists_ensureDirectory h hstart path
    have hformed := (evolves_ensureDirectory h hrun).wellFormed h
    obtain ⟨hafter, hid⟩ := (ensureDirectory_eq_ok_iff h hstart).mp hrun
    obtain ⟨last, other, hrest⟩ := exists_ensureDirectory hformed hid rest
    obtain ⟨hlast, hother⟩ := (ensureDirectory_eq_ok_iff hformed hid).mp hrest
    rw [hrun, Outcome.ok_bind]
    dsimp only
    rw [hrest, ensureDirectory_eq_ok_iff h hstart, Path.segments_append hseparator,
      enterAll_append, List.foldl_append]
    rw [hafter, ← enterAll_snd archive] at hlast
    exact ⟨hlast, hother⟩

end Paths

/-! ## The main statement -/

/-- What the making of directories leaves as it was: the directories that were there keep their
    names, their files, and their places among each other; those that are new hold no files. -/
structure Enlarged (archive after : Archive) : Prop where
  kept : ∀ {id view}, archive.view? id = some view → ∃ view', after.view? id = some view' ∧
    view'.name = view.name ∧ view'.parent? = view.parent? ∧ view'.files = view.files ∧
    ∀ name child, view.subdirectory? name = some child → view'.subdirectory? name = some child
  new : ∀ {id view}, archive.view? id = none → after.view? id = some view → view.files = []
  policy_eq : after.policy = archive.policy

section Main

variable {archive : Archive} {location : Location}

theorem enlarged_enterAll (h : archive.WellFormed) (hlive : archive.Live location)
    {segments : List Segment} (hplain : ∀ name, .name name ∈ segments → Path.Plain name) :
    Enlarged archive (archive.enterAll location segments).1 := by
  have hformed := (grows_enterAll segments hlive hplain).1.evolves.wellFormed h
  have hextends := extends_enterAll hlive hplain
  have hheld := fun other => (live_held_enterAll hlive hplain other).2
  constructor
  · intro id view hview
    obtain ⟨there, hid, rfl⟩ := (view?_eq_some_iff h).mp hview
    have hthere := live_of_idAt hid
    refine ⟨_, view?_of_idAt hformed ((hextends.ids there hthere).trans hid), ?_, ?_, hheld there,
      fun name child hchild => (hextends.ids _ (live_of_idAt hchild)).trans hchild⟩
    · exact congrArg there.getLast?.getD hextends.name_eq
    · exact congrArg (if there = [] then none else ·) (hextends.ids _ (live_dropLast hthere))
  · intro id view hnone hview
    obtain ⟨there, hid, rfl⟩ := (view?_eq_some_iff hformed).mp hview
    -- A number that is new is that of a directory that the walk has added.
    have hmissing : ¬ archive.Live there := fun hthere =>
      (view?_eq_none_iff h).mp hnone there ((hextends.ids there hthere).symm.trans hid)
    refine (hheld there).trans ?_
    rw [held, filesAt_of_not_live hmissing, Option.getD_none]
  · exact hextends.policy_eq

/-- From a directory a path always leads to one.  It is found there once it has been made, and if
    it is found before, then it is that one and nothing changes; making it leaves alone what was
    there.  Two paths with a slash or a backslash in between are the one path after the other. -/
theorem directories_agree (h : Reachable archive) (start : DirectoryId) (path : String) :
    ((archive.place? start).isSome → ∃ after id,
      archive.ensureDirectory start path = .ok (after, id) ∧
        (after.findDirectory? start path).map Place.id = some id ∧ Enlarged archive after) ∧
    (∀ place, archive.findDirectory? start path = some place →
      archive.ensureDirectory start path = .ok (archive, place.id)) ∧
    ∀ separator rest, separator = '/' ∨ separator = '\\' →
      (archive.ensureDirectory start (path ++ String.singleton separator ++ rest)
        = archive.ensureDirectory start path >>= fun (after, id) =>
            after.ensureDirectory id rest) ∧
      archive.findDirectory? start (path ++ String.singleton separator ++ rest)
        = (archive.findDirectory? start path).bind fun place =>
            archive.findDirectory? place.id rest := by
  have hformed := h.wellFormed
  refine ⟨fun hsome => ?_, fun place => ensureDirectory_of_findDirectory? hformed,
    fun separator rest hseparator => ?_⟩
  · obtain ⟨place, hplace⟩ := Option.isSome_iff_exists.mp hsome
    have hstart := idAt_of_place? hformed hplace
    obtain ⟨after, id, hrun⟩ := exists_ensureDirectory hformed hstart path
    obtain ⟨rfl, -⟩ := (ensureDirectory_eq_ok_iff hformed hstart).mp hrun
    exact ⟨_, id, hrun, map_id_findDirectory?_of_ensureDirectory hformed hstart hrun,
      enlarged_enterAll hformed (live_of_idAt hstart) fun name => Path.plain_of_mem_segments⟩
  · have hseparator : Path.isSeparator separator = true := by
      rcases hseparator with rfl | rfl <;> rfl
    exact ⟨ensureDirectory_append hformed hseparator start path rest,
      findDirectory?_append hformed hseparator start path rest⟩

/-- The archive with two directories after a third one has been added beside the inner one. -/
def widened : Archive where
  root := ⟨{ id := rootId, name := "root" },
    .cons { id := 1, name := "a" }
      (.cons { id := 2, name := "b" } .nil (.cons { id := 3, name := "c" } .nil .nil)) .nil⟩
  nextId := 4

/-- The directory is added on a walk up and down, from which another one leads on. -/
theorem directories_agree_widened :
    (nested.place? 2).isSome ∧ nested.findDirectory? 2 "..\\c" = none ∧
      nested.ensureDirectory 2 "..\\c" = .ok (widened, 3) ∧
      (widened.findDirectory? 2 "..\\c").map Place.id = some 3 ∧ Enlarged nested widened ∧
      nested.ensureDirectory 2 "..\\c/.././/b" = .ok (widened, 2) := by
  have hnested : (new "root").ensureDirectory rootId "a/b" = .ok (nested, 2) := by rfl
  have hreachable : Reachable nested := .ensureDirectory (.new "root") hnested
  have hstart : (nested.place? 2).isSome := by decide +kernel
  have hnone : nested.findDirectory? 2 "..\\c" = none := by decide +kernel
  have hwidened : nested.ensureDirectory 2 "..\\c" = .ok (widened, 3) := by rfl
  obtain ⟨hmade, -, hrow⟩ := directories_agree hreachable 2 "..\\c"
  obtain ⟨after, id, hrun, hfound, henlarged⟩ := hmade hstart
  obtain ⟨rfl, rfl⟩ := Prod.mk.inj (Except.ok.inj (hwidened.symm.trans hrun))
  have hback : widened.ensureDirectory 3 ".././/b" = .ok (widened, 2) := by rfl
  have htwo := (hrow '/' ".././/b" (Or.inl rfl)).1
  rw [hwidened, Outcome.ok_bind] at htwo
  exact ⟨hstart, hnone, hwidened, hfound, henlarged, htwo.trans hback⟩

end Main

end HashArchive.Archive
