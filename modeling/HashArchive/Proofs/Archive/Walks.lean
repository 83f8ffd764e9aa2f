/-
  HashArchive.Proofs.Archive.Walks

  What walks and new files change, location by location.  A walk adds the directories that
  it goes through and changes no file (`live_held_enterAll`); a new file comes to those at
  the end of its walk (`held_putFileAt`).  Neither changes the number of a directory that
  is there (`Extends`).
-/
import Mathlib
import HashArchive.Proofs.Archive.Identity
import HashArchive.Proofs.Archive.Populate

namespace HashArchive

/-- The directory with other files. -/
def Directory.changeFiles (f : List Entry → List Entry) (directory : Directory) : Directory :=
  { directory with files := f directory.files }

/-- Where a step from a location leads. -/
def Segment.next (location : Location) : Segment → Location
  | .parent => location.dropLast
  | .name last => location ++ [last]

namespace Archive

/-! ## The files at a location -/

/-- The files at a location, none where there is no directory. -/
def held (archive : Archive) (location : Location) : List Entry :=
  (archive.filesAt location).getD []

section Held

variable {archive : Archive} {location : Location}

theorem filesAt_of_live (h : archive.Live location) :
    archive.filesAt location = some (archive.held location) := by
  obtain ⟨files, hfiles⟩ := Option.isSome_iff_exists.mp (live_iff_filesAt.mp h)
  rw [held, hfiles, Option.getD_some]

theorem held_of_mem_places (h : archive.WellFormed) {place : Place}
    (hmem : place ∈ archive.places) : archive.held place.location = place.tree.label.files := by
  have hfound := (mem_places_iff h).mp hmem
  rw [descend?] at hfound
  unfold held filesAt directory? Tree.directory?
  rw [hfound]
  rfl

theorem ascending_held (h : archive.WellFormed) (location : Location) :
    Entry.Ascending (archive.held location) := by
  by_cases hlive : archive.Live location
  · obtain ⟨place, hmem, rfl⟩ := List.mem_map.mp ((mem_locations_iff h).mpr hlive)
    rw [held_of_mem_places h hmem]
    exact (h.sound _ (label_mem_of_mem_places hmem)).ascending
  · rw [held, filesAt_of_not_live hlive]
    exact List.Pairwise.nil

/-- The files that are held at a location are those that are listed there. -/
theorem mem_held_iff (h : archive.WellFormed) {entry : Entry} :
    entry ∈ archive.held location ↔
      ∃ file ∈ archive.files, file.place.location = location ∧ file.entry = entry := by
  constructor
  · intro hmem
    have hlive : archive.Live location := by
      by_contra hdead
      rw [held, filesAt_of_not_live hdead] at hmem
      cases hmem
    obtain ⟨place, hplace, rfl⟩ := List.mem_map.mp ((mem_locations_iff h).mpr hlive)
    rw [held_of_mem_places h hplace] at hmem
    exact ⟨⟨place, entry⟩, mem_files_iff.mpr ⟨hplace, hmem⟩, rfl, rfl⟩
  · rintro ⟨file, hmem, rfl, rfl⟩
    obtain ⟨hplace, hentry⟩ := mem_files_iff.mp hmem
    rwa [held_of_mem_places h hplace]

end Held

/-! ## Other files in one directory -/

/-- The archive with other files in the directory at a location. -/
def changeFiles (archive : Archive) (location : Location) (f : List Entry → List Entry) : Archive :=
  { archive with root := archive.root.update (Tree.updateRoot (·.changeFiles f)) location }

section ChangeFiles

variable {archive : Archive} {location : Location} {f : List Entry → List Entry}

theorem directory?_changeFiles (archive : Archive) (location : Location)
    (f : List Entry → List Entry) (other : Location) :
    (archive.changeFiles location f).directory? other
      = if other = location then (archive.directory? location).map (·.changeFiles f)
        else archive.directory? other :=
  directory?_updateRoot (g := (·.changeFiles f)) (fun _ => rfl) location other

theorem idAt_changeFiles (archive : Archive) (location : Location) (f : List Entry → List Entry)
    (other : Location) : (archive.changeFiles location f).idAt other = archive.idAt other :=
  idAt_updateRoot (g := (·.changeFiles f)) (fun _ => rfl) (fun _ => rfl) location other

theorem held_changeFiles (hlive : archive.Live location) (other : Location) :
    (archive.changeFiles location f).held other
      = if other = location then f (archive.held location) else archive.held other := by
  obtain ⟨directory, hdirectory⟩ := Option.isSome_iff_exists.mp (live_iff.mp hlive)
  rw [held, filesAt, directory?_changeFiles]
  split
  · rw [held, filesAt, hdirectory]
    rfl
  · rfl

theorem held_putFile (hlive : archive.Live location) (entry : Entry) (other : Location) :
    (archive.putFile location entry).held other
      = if other = location then entry.put (archive.held location) else archive.held other :=
  held_changeFiles (f := entry.put) hlive other

end ChangeFiles

/-! ## Directories that stay -/

/-- All directories of an archive are there afterwards under the same numbers, and its name and
    its settings are the same. -/
structure Extends (archive after : Archive) : Prop where
  ids : ∀ location, archive.Live location → after.idAt location = archive.idAt location
  name_eq : after.name = archive.name
  policy_eq : after.policy = archive.policy

section Extends

variable {archive middle after : Archive} {location : Location}

theorem Extends.refl (archive : Archive) : Extends archive archive := ⟨fun _ _ => rfl, rfl, rfl⟩

theorem Extends.live (h : Extends archive after) (hlive : archive.Live location) :
    after.Live location := by
  rw [live_iff_idAt, h.ids location hlive, ← live_iff_idAt]
  exact hlive

theorem Extends.trans (h : Extends archive middle) (h' : Extends middle after) :
    Extends archive after :=
  ⟨fun location hlive => (h'.ids location (h.live hlive)).trans (h.ids location hlive),
    h'.name_eq.trans h.name_eq, h'.policy_eq.trans h.policy_eq⟩

theorem extends_putFile (archive : Archive) (location : Location) (entry : Entry) :
    Extends archive (archive.putFile location entry) :=
  ⟨fun other _ => idAt_changeFiles archive location entry.put other,
    name_putFile archive location entry, rfl⟩

theorem extends_enter (hlive : archive.Live location) (segment : Segment) :
    Extends archive (archive.enter location segment).1 := by
  cases segment with
  | parent => exact Extends.refl archive
  | name name =>
    by_cases hthere : archive.Live (location ++ [name])
    · rw [enter_name_of_live hthere]
      exact Extends.refl archive
    · rw [enter_name_of_not_live hthere]
      refine ⟨fun other hother => ?_, name_addDirectory archive location name, rfl⟩
      -- The new directory is where there was none.
      have hne : other ≠ location ++ [name] := by
        rintro rfl
        exact hthere hother
      rw [idAt_addDirectory hlive hthere, if_neg hne]

theorem extends_enterAll (hlive : archive.Live location) {segments : List Segment}
    (hplain : ∀ name, .name name ∈ segments → Path.Plain name) :
    Extends archive (archive.enterAll location segments).1 := by
  induction segments generalizing archive location with
  | nil => exact Extends.refl archive
  | cons segment segments ih =>
    have hstep := (grows_enter segment hlive fun name heq =>
      hplain name (heq ▸ List.mem_cons_self)).2
    have hrest := ih hstep fun name hmem => hplain name (List.mem_cons_of_mem _ hmem)
    exact (extends_enter hlive segment).trans hrest

theorem extends_putFileAt (hlive : archive.Live location) {segments : List Segment}
    (hplain : ∀ name, .name name ∈ segments → Path.Plain name) (name : String)
    (source : Source) : Extends archive (archive.putFileAt location segments name source).1 :=
  (extends_enterAll hlive hplain).trans (extends_putFile _ _ _)

/-! ## Directories that stay while an archive is read -/

theorem extends_addEntry {origin : Origin} {entry : IndexEntry} (hlive : archive.Live location)
    (hrun : origin.addFile location archive entry = .ok after) : Extends archive after := by
  obtain ⟨path, position, segments, name, -, -, hfile, rfl⟩ := exists_of_addFile hrun
  exact extends_putFileAt hlive (fun _ => Path.plain_above_of_file? hfile) name _

theorem extends_addEntries {origin : Origin} {entries : List IndexEntry}
    (hlive : archive.Live location)
    (hrun : origin.addFiles location archive entries = .ok after) : Extends archive after := by
  rw [Origin.addFiles] at hrun
  apply Outcome.foldlM_induct hrun (Extends.refl archive)
  intro entry _ before next hnext hextends
  exact hextends.trans (extends_addEntry (hextends.live hlive) hnext)

theorem extends_addDirectories {origin : Origin} {index : Index} {entries : List IndexEntry}
    (hlive : archive.Live location)
    (hrun : origin.addDirectories index location archive entries = .ok after) :
    Extends archive after := by
  refine addDirectories_induct (motive := fun _ location archive _ after =>
    archive.Live location → Extends archive after) ?_ ?_ hrun hlive
  · exact fun _ _ archive _ => Extends.refl archive
  · intro _ location archive _ _ name _ _ _ _ _ hfiles hbelow hrest hlive
    have hplain : ∀ other, .name other ∈ Path.segments name → Path.Plain other :=
      fun _ => Path.plain_of_mem_segments
    have hwalk := extends_enterAll hlive hplain
    have hend := (grows_enterAll _ hlive hplain).2
    have hfilled := extends_addEntries hend hfiles
    have hstep := hwalk.trans (hfilled.trans (hbelow (hfilled.live hend)))
    exact hstep.trans (hrest (hstep.live hlive))

theorem extends_populate {origin : Origin} {index : Index} (hlive : archive.Live location)
    (hrun : origin.populate index location archive = .ok after) : Extends archive after := by
  obtain ⟨filled, hfiles, hbelow⟩ := Outcome.bind_eq_ok_iff.mp hrun
  have hfilled := extends_addEntries hlive hfiles
  exact hfilled.trans (extends_addDirectories (hfilled.live hlive) hbelow)

end Extends

/-! ## Walks -/

/-- The locations that a walk goes through, the first one included. -/
def passed (location : Location) (segments : List Segment) : List Location :=
  segments.scanl Segment.next location

theorem passed_cons (location : Location) (segment : Segment) (segments : List Segment) :
    passed location (segment :: segments)
      = location :: passed (segment.next location) segments := by
  rw [passed, List.scanl_cons, passed]

theorem mem_passed_self (location : Location) (segments : List Segment) :
    location ∈ passed location segments := by
  cases segments with
  | nil => exact List.mem_cons_self
  | cons segment segments =>
    rw [passed_cons]
    exact List.mem_cons_self

/-- Names lead down one after another. -/
theorem foldl_next_names (location names : Location) :
    (names.map Segment.name).foldl Segment.next location = location ++ names := by
  induction names generalizing location with
  | nil => exact (List.append_nil location).symm
  | cons name names ih =>
    rw [List.map_cons, List.foldl_cons, ih]
    exact List.append_cons location name names |>.symm

theorem foldl_mem_passed (location : Location) (segments : List Segment) :
    segments.foldl Segment.next location ∈ passed location segments := by
  induction segments generalizing location with
  | nil => exact List.mem_cons_self
  | cons segment segments ih =>
    rw [List.foldl_cons, passed_cons]
    exact List.mem_cons_of_mem _ (ih _)

section Walks

variable {archive : Archive} {location : Location}

theorem enter_snd (archive : Archive) (location : Location) (segment : Segment) :
    (archive.enter location segment).2 = segment.next location := by
  cases segment with
  | parent => rfl
  | name name => exact enter_name_snd archive location name

/-- A walk ends where its steps lead. -/
theorem enterAll_snd (archive : Archive) (location : Location) (segments : List Segment) :
    (archive.enterAll location segments).2 = segments.foldl Segment.next location := by
  induction segments generalizing archive location with
  | nil => rfl
  | cons segment segments ih =>
    rw [List.foldl_cons, ← enter_snd archive location segment]
    exact ih _ _

/-- A step adds the directory that it leads to, if that is missing. -/
theorem live_enter (hlive : archive.Live location) (segment : Segment) (other : Location) :
    (archive.enter location segment).1.Live other
      ↔ other = segment.next location ∨ archive.Live other := by
  cases segment with
  | parent => exact (or_iff_right_of_imp fun heq => heq ▸ live_dropLast hlive).symm
  | name name =>
    by_cases hthere : archive.Live (location ++ [name])
    · rw [enter_name_of_live hthere]
      exact (or_iff_right_of_imp fun heq => heq ▸ hthere).symm
    · rw [enter_name_of_not_live hthere]
      exact live_addDirectory hlive hthere

/-- A step changes no file. -/
theorem held_enter (hlive : archive.Live location) (segment : Segment) (other : Location) :
    (archive.enter location segment).1.held other = archive.held other := by
  cases segment with
  | parent => rfl
  | name name =>
    by_cases hthere : archive.Live (location ++ [name])
    · rw [enter_name_of_live hthere]
    · rw [enter_name_of_not_live hthere, held, filesAt_addDirectory hlive hthere]
      split
      · next heq => rw [held, heq, filesAt_of_not_live hthere, Option.getD_some, Option.getD_none]
      · rfl

/-- A walk adds the directories that it goes through, if they are missing, and changes no
    file. -/
theorem live_held_enterAll (hlive : archive.Live location) {segments : List Segment}
    (hplain : ∀ name, .name name ∈ segments → Path.Plain name) (other : Location) :
    ((archive.enterAll location segments).1.Live other
        ↔ other ∈ passed location segments ∨ archive.Live other) ∧
      (archive.enterAll location segments).1.held other = archive.held other := by
  induction segments generalizing archive location with
  | nil =>
    refine ⟨(or_iff_right_of_imp fun hmem => ?_).symm, rfl⟩
    rw [List.mem_singleton.mp hmem]
    exact hlive
  | cons segment segments ih =>
    have hstep := (grows_enter segment hlive fun name heq =>
      hplain name (heq ▸ List.mem_cons_self)).2
    obtain ⟨hrest, hheld⟩ := ih hstep fun name hmem => hplain name (List.mem_cons_of_mem _ hmem)
    refine ⟨hrest.trans ?_, hheld.trans (held_enter hlive segment other)⟩
    rw [enter_snd, live_enter hlive, passed_cons, List.mem_cons]
    constructor
    · rintro (hmem | rfl | hthere)
      · exact Or.inl (Or.inr hmem)
      · exact Or.inl (Or.inr (mem_passed_self _ _))
      · exact Or.inr hthere
    · rintro ((rfl | hmem) | hthere)
      · exact Or.inr (Or.inr hlive)
      · exact Or.inl hmem
      · exact Or.inr (Or.inr hthere)

end Walks

/-! ## New files -/

/-- The key of a new file. -/
def keyIn (archive : Archive) (location : Location) (name : String) : String :=
  if archive.policy.keepDuplicates then archive.directoryPath location ++ "/" ++ name else name

/-- A file as it is once it has been added. -/
def added (archive : Archive) (location : Location) (name : String) (source : Source) : Entry :=
  { name, key := archive.keyIn location name, source }

section Added

variable {start archive : Archive} {location : Location}

/-- Files of different names have different keys. -/
theorem keyIn_inj {name other : String} :
    archive.keyIn location name = archive.keyIn location other ↔ name = other := by
  rw [keyIn, keyIn]
  split
  · exact String.append_right_inj _
  · rfl

theorem Grows.keyIn_eq (h : Grows start archive) (location : Location) (name : String) :
    archive.keyIn location name = start.keyIn location name := by
  rw [keyIn, keyIn, directoryPath, directoryPath, h.name_eq, h.policy_eq]

/-- A file comes to those at the end of its walk, in place of the one that has its key. -/
theorem held_putFileAt (hlive : archive.Live location) {segments : List Segment}
    (hplain : ∀ name, .name name ∈ segments → Path.Plain name) (name : String) (source : Source)
    (other : Location) :
    (archive.putFileAt location segments name source).1.held other
      = if other = segments.foldl Segment.next location then
          (archive.added (segments.foldl Segment.next location) name source).put
            (archive.held (segments.foldl Segment.next location))
        else archive.held other := by
  obtain ⟨hwalk, hend⟩ := grows_enterAll segments hlive hplain
  have hheld := fun other => (live_held_enterAll hlive hplain other).2
  have hrun : (archive.putFileAt location segments name source).1
      = (archive.enterAll location segments).1.putFile (archive.enterAll location segments).2
          ((archive.enterAll location segments).1.added (archive.enterAll location segments).2
            name source) := rfl
  rw [hrun, held_putFile hend, hheld, hheld, enterAll_snd, added, hwalk.keyIn_eq]
  rfl

theorem live_putFileAt (hlive : archive.Live location) {segments : List Segment}
    (hplain : ∀ name, .name name ∈ segments → Path.Plain name) (name : String) (source : Source)
    (other : Location) :
    (archive.putFileAt location segments name source).1.Live other
      ↔ other ∈ passed location segments ∨ archive.Live other :=
  live_putFile.trans (live_held_enterAll hlive hplain other).1

end Added

end Archive

end HashArchive
