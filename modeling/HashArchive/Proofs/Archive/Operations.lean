/-
  HashArchive.Proofs.Archive.Operations

  Every operation as a sequence of changes.  Those that only add directories and files
  keep every location a location (`Grows`), which is what a walk needs on its way.
-/
import Mathlib
import HashArchive.Proofs.Archive.Places

namespace HashArchive.Archive

/-- One archive becomes another by changes after which all its directories are still
    there, and its name and its settings are the same. -/
structure Grows (archive after : Archive) : Prop where
  evolves : Evolves archive after
  live : ∀ location, archive.Live location → after.Live location
  name_eq : after.name = archive.name
  policy_eq : after.policy = archive.policy

theorem Grows.refl (archive : Archive) : Grows archive archive :=
  ⟨Evolves.refl archive, fun _ h => h, rfl, rfl⟩

theorem Grows.trans {a b c : Archive} (hab : Grows a b) (hbc : Grows b c) : Grows a c :=
  ⟨hab.evolves.trans hbc.evolves, fun location h => hbc.live location (hab.live location h),
    hbc.name_eq.trans hab.name_eq, hbc.policy_eq.trans hab.policy_eq⟩

theorem name_putFile (archive : Archive) (location : Location) (entry : Entry) :
    (archive.putFile location entry).name = archive.name :=
  Tree.name_update (f := Tree.updateRoot (·.put entry)) (fun _ => rfl) archive.root location

theorem name_addDirectory (archive : Archive) (location : Location) (name : String) :
    (archive.addDirectory location name).name = archive.name :=
  Tree.name_update (f := Tree.addBelow { id := archive.nextId, name }) (fun _ => rfl) archive.root
    location

theorem grows_putFile {archive : Archive} {location : Location} {entry : Entry}
    (hlive : archive.Live location) (hsound : entry.Sound) :
    Grows archive (archive.putFile location entry) :=
  ⟨(Change.putFile hlive hsound).evolves, fun _ h => live_putFile.mpr h,
    name_putFile archive location entry, rfl⟩

/-! ## Walks that add directories -/

section Walks

variable {archive : Archive} {location : Location}

theorem enter_name_of_live {name : String} (h : archive.Live (location ++ [name])) :
    archive.enter location (.name name) = (archive, location ++ [name]) := if_pos h

theorem enter_name_of_not_live {name : String} (h : ¬ archive.Live (location ++ [name])) :
    archive.enter location (.name name)
      = (archive.addDirectory location name, location ++ [name]) := if_neg h

@[simp] theorem enter_name_snd (archive : Archive) (location : Location) (name : String) :
    (archive.enter location (.name name)).2 = location ++ [name] := by
  by_cases h : archive.Live (location ++ [name])
  · rw [enter_name_of_live h]
  · rw [enter_name_of_not_live h]

/-- A step ends in a directory. -/
theorem grows_enter (segment : Segment) (hlive : archive.Live location)
    (hplain : ∀ name, segment = .name name → Path.Plain name) :
    Grows archive (archive.enter location segment).1 ∧
      (archive.enter location segment).1.Live (archive.enter location segment).2 := by
  cases segment with
  | parent => exact ⟨Grows.refl archive, live_dropLast hlive⟩
  | name name =>
    by_cases hthere : archive.Live (location ++ [name])
    · rw [enter_name_of_live hthere]
      exact ⟨Grows.refl archive, hthere⟩
    · rw [enter_name_of_not_live hthere]
      have hlook : ∀ other, (archive.addDirectory location name).Live other ↔
          other = location ++ [name] ∨ archive.Live other :=
        fun _ => live_addDirectory hlive hthere
      refine ⟨⟨(Change.addDirectory hlive hthere (hplain name rfl)).evolves, ?_,
        name_addDirectory archive location name, rfl⟩, ?_⟩
      · exact fun other h => (hlook other).mpr (Or.inr h)
      · exact (hlook _).mpr (Or.inl rfl)

/-- A walk ends in a directory. -/
theorem grows_enterAll (segments : List Segment) (hlive : archive.Live location)
    (hplain : ∀ name, .name name ∈ segments → Path.Plain name) :
    Grows archive (archive.enterAll location segments).1 ∧
      (archive.enterAll location segments).1.Live (archive.enterAll location segments).2 := by
  induction segments generalizing archive location with
  | nil => exact ⟨Grows.refl archive, hlive⟩
  | cons segment segments ih =>
    have hstep := grows_enter segment hlive fun name heq =>
      hplain name (heq ▸ List.mem_cons_self)
    have hrest := ih hstep.2 fun name hmem => hplain name (List.mem_cons_of_mem _ hmem)
    exact ⟨hstep.1.trans hrest.1, hrest.2⟩

/-- However a new file is keyed, the key goes with its name. -/
theorem grows_putFileAt {segments : List Segment} {name : String} (source : Source)
    (hlive : archive.Live location) (hplain : ∀ name, .name name ∈ segments → Path.Plain name)
    (hname : Path.Plain name) :
    Grows archive (archive.putFileAt location segments name source).1 := by
  obtain ⟨hwalk, hend⟩ := grows_enterAll segments hlive hplain
  refine hwalk.trans (grows_putFile hend ⟨hname, ?_⟩)
  -- With duplicates kept the key is the whole location, which ends in the name; otherwise it is
  -- the name.
  by_cases hkeep : (archive.enterAll location segments).1.policy.keepDuplicates = true
  · exact Or.inr ⟨_, if_pos hkeep⟩
  · exact Or.inl (if_neg hkeep)

end Walks

/-! ## Edits -/

section Edits

variable {archive after : Archive} {start : DirectoryId} {path : String}

theorem evolves_ensureDirectory {id : DirectoryId} (h : archive.WellFormed)
    (hrun : archive.ensureDirectory start path = .ok (after, id)) : Evolves archive after := by
  rw [ensureDirectory] at hrun
  split at hrun
  · obtain ⟨rfl, -⟩ := Prod.mk.inj (Except.ok.inj hrun)
    exact Evolves.refl archive
  · cases hrun
  · next place hplace =>
    have hlive := live_of_mem_places h ((place?_eq_some_iff h).mp hplace).1
    have hwalk := (grows_enterAll (Path.segments path) hlive
      fun name => Path.plain_of_mem_segments).1.evolves
    dsimp only at hrun
    split at hrun
    · obtain ⟨rfl, -⟩ := Prod.mk.inj (Except.ok.inj hrun)
      exact hwalk
    · cases hrun

theorem evolves_addFile {source : Source} {address : FileAddress} (h : archive.WellFormed)
    (hrun : archive.addFile start path source = .ok (after, address)) :
    Evolves archive after := by
  rw [addFile] at hrun
  split at hrun
  · cases hrun
  · next segments name hfile =>
    split at hrun
    · cases hrun
    · next place hplace =>
      have hlive := live_of_mem_places h ((place?_eq_some_iff h).mp hplace).1
      obtain ⟨rfl, -⟩ := Prod.mk.inj (Except.ok.inj hrun)
      exact (grows_putFileAt source hlive (fun _ => Path.plain_above_of_file? hfile)
        (Path.plain_of_file? hfile)).evolves

theorem evolves_copyFile {source target : String} {address : FileAddress} (h : archive.WellFormed)
    (hrun : archive.copyFile source target = .ok (after, address)) : Evolves archive after := by
  rw [copyFile] at hrun
  split at hrun
  · cases hrun
  · exact evolves_addFile h hrun

theorem evolves_removeFile (archive : Archive) (start : DirectoryId) (path : String) :
    Evolves archive (archive.removeFile start path).1 := by
  rw [removeFile]
  split
  · exact Evolves.refl archive
  · exact (Change.removeFile archive _ _).evolves

theorem evolves_removeDirectory (archive : Archive) (start : DirectoryId) (path : String) :
    Evolves archive (archive.removeDirectory start path).1 := by
  rw [removeDirectory]
  split
  · exact Evolves.refl archive
  · split
    · exact Evolves.refl archive
    · exact (Change.removeDirectory archive _ _).evolves

theorem evolves_settle (archive : Archive) (streams : Streams) (files : List StoredFile) :
    Evolves archive (archive.settle streams files) := by
  induction files generalizing archive with
  | nil => exact Evolves.refl archive
  | cons file files ih => exact (Change.updateSource archive file.address _).evolves.trans (ih _)

end Edits

/-! ## Merges -/

section Merges

variable (mode : MergeMode) {location : Location} {archive : Archive}

/-- What a merge adds files of: directories with plain names and sound files. -/
def Mergeable (directories : List Directory) : Prop :=
  ∀ directory ∈ directories, Path.Plain directory.name ∧ directory.Sound

/-- A tree among siblings whose directories can be merged has a plain name. -/
theorem Mergeable.plain_of_mem_names {forest : Forest Directory}
    (h : Mergeable forest.labels) {name : String} (hmem : name ∈ forest.names) :
    Path.Plain name := by
  induction forest with
  | nil => cases hmem
  | cons directory below rest _ ih =>
    rcases List.mem_cons.mp hmem with rfl | hmem
    · exact (h directory List.mem_cons_self).1
    · exact ih (fun other hother => h other (by simp [Forest.labels, hother])) hmem

/-- The directories below the root can be merged. -/
theorem mergeable_below (h : archive.WellFormed) : Mergeable archive.root.below.labels := by
  intro directory hmem
  have hthere : directory ∈ archive.root.labels := List.mem_cons_of_mem _ hmem
  -- Only the root has its number, so the name of any other directory is plain.
  refine ⟨h.plain directory hthere ?_, h.sound directory hthere⟩
  intro hid
  have hnodup := h.nodup
  rw [Tree.labels, List.map_cons, List.nodup_cons] at hnodup
  exact hnodup.1 (List.mem_map.mpr ⟨directory, hmem, hid.trans h.root_id.symm⟩)

theorem grows_mergeFiles {entries : List Entry} (hlive : archive.Live location)
    (hsound : ∀ entry ∈ entries, entry.Sound) :
    Grows archive (mergeFiles mode location entries archive).1 := by
  induction entries generalizing archive with
  | nil => exact Grows.refl archive
  | cons entry entries ih =>
    rw [mergeFiles]
    split
    · exact Grows.refl archive
    · next source hsource =>
      have hentry : Entry.Sound
          { name := entry.name, key := mode.key location entry.name, source } := by
        refine ⟨(hsound entry List.mem_cons_self).plain, ?_⟩
        by_cases hkeep : mode.keepDuplicates = true
        · exact Or.inr ⟨_, if_pos hkeep⟩
        · exact Or.inl (if_neg hkeep)
      refine (grows_putFile hlive hentry).trans (ih (live_putFile.mpr hlive) ?_)
      exact fun other hmem => hsound other (List.mem_cons_of_mem _ hmem)

theorem grows_mergeSubdirectories {below : Forest Directory} (hlive : archive.Live location)
    (hplain : ∀ name ∈ below.names, Path.Plain name) :
    Grows archive (mergeSubdirectories location below archive) ∧
      ∀ name ∈ below.names,
        (mergeSubdirectories location below archive).Live (location ++ [name]) := by
  rw [mergeSubdirectories]
  unfold Forest.names at hplain ⊢
  generalize below.trees = trees at hplain ⊢
  induction trees with
  | nil => exact ⟨Grows.refl archive, by simp⟩
  | cons tree trees ih =>
    obtain ⟨hgrows, hchildren⟩ := ih fun name hmem => hplain name (List.mem_cons_of_mem _ hmem)
    -- The first subdirectory is entered last, after all that the induction is about.
    rw [List.reverse_cons, List.foldl_append]
    have hname : Path.Plain tree.label.name := hplain _ List.mem_cons_self
    have hstep := grows_enter (.name tree.label.name) (hgrows.live location hlive)
      (by rintro name ⟨⟩; exact hname)
    refine ⟨hgrows.trans hstep.1, ?_⟩
    intro name hmem
    rcases List.mem_cons.mp hmem with rfl | hmem
    · have hend := hstep.2
      rw [enter_name_snd] at hend
      exact hend
    · exact hstep.1.live _ (hchildren name hmem)

/-- After a directory has been merged, the directories in it are there. -/
theorem grows_mergeDirectory (tree : Tree Directory) (hlive : archive.Live location)
    (hfiles : tree.label.Sound) (hplain : ∀ name ∈ tree.below.names, Path.Plain name) :
    Grows archive (mergeDirectory mode location tree archive).1 ∧
      ((mergeDirectory mode location tree archive).2 = none → ∀ name ∈ tree.below.names,
        (mergeDirectory mode location tree archive).1.Live (location ++ [name])) := by
  have hsound : ∀ entry ∈ tree.label.listing, entry.Sound := fun entry hmem =>
    hfiles.entries entry ((Sorted.perm_sort _ _).mem_iff.mp hmem)
  have hgrows := grows_mergeFiles mode hlive hsound
  rw [mergeDirectory]
  split
  · next merged error hrun =>
    rw [hrun] at hgrows
    exact ⟨hgrows, by simp⟩
  · next merged hrun =>
    rw [hrun] at hgrows
    obtain ⟨hmore, hchildren⟩ := grows_mergeSubdirectories (hgrows.live location hlive) hplain
    exact ⟨hgrows.trans hmore, fun _ => hchildren⟩

theorem grows_mergeForest {forest : Forest Directory} {above : Location}
    (hlive : ∀ name ∈ forest.names, archive.Live (above ++ [name]))
    (hforest : Mergeable forest.labels) :
    Grows archive (mergeForest mode forest above archive).1 := by
  induction forest generalizing above archive with
  | nil => exact Grows.refl archive
  | cons directory below rest ihBelow ihRest =>
    have hbelow : Mergeable below.labels := fun other hmem =>
      hforest other (by simp [Forest.labels, hmem])
    have hrest : Mergeable rest.labels := fun other hmem =>
      hforest other (by simp [Forest.labels, hmem])
    have hdirectory := hforest directory (by simp [Forest.labels])
    obtain ⟨hgrows, hchildren⟩ := grows_mergeDirectory mode ⟨directory, below⟩
      (hlive directory.name (by simp)) hdirectory.2
      fun name hmem => hbelow.plain_of_mem_names hmem
    -- What a merge did before it stopped has only added to the archive.
    rw [mergeForest]
    split
    · next merged error hrun =>
      rw [hrun] at hgrows
      exact hgrows
    · next merged hrun =>
      rw [hrun] at hgrows hchildren
      have hinside := ihBelow (hchildren rfl) hbelow
      split
      · next inner error hrun =>
        rw [hrun] at hinside
        exact hgrows.trans hinside
      · next inner hrun =>
        rw [hrun] at hinside
        have hgrows := hgrows.trans hinside
        refine hgrows.trans (ihRest ?_ hrest)
        intro name hmem
        exact hgrows.live _ (hlive name (by simp [hmem]))

/-- A merge of one archive into another changes the other, also when it stops on the way. -/
theorem evolves_merge {source : Archive} (hsource : source.WellFormed) (archive : Archive)
    (streams : Streams) (keepDuplicates : Bool) :
    Evolves archive (archive.merge source streams keepDuplicates).1 := by
  set start : Archive := { archive with policy := { archive.policy with keepDuplicates } }
    with hstart
  have hsettings : Evolves archive start := (Change.settings archive _).evolves
  have hbelow := mergeable_below hsource
  set mode : MergeMode := { streams, keepDuplicates, sourceName := source.name }
  -- The settings change first; then the root is merged, and after it all that is below it.
  obtain ⟨hgrows, hchildren⟩ := grows_mergeDirectory mode source.root (live_nil start)
    (hsource.sound source.root.label List.mem_cons_self)
    fun name hmem => hbelow.plain_of_mem_names hmem
  apply hsettings.trans
  rw [merge]
  dsimp only
  split
  · next merged error hrun =>
    rw [show mergeDirectory mode [] source.root start = (merged, some error) from hrun] at hgrows
    exact hgrows.evolves
  · next merged hrun =>
    rw [show mergeDirectory mode [] source.root start = (merged, none) from hrun]
      at hgrows hchildren
    exact (hgrows.trans (grows_mergeForest mode (hchildren rfl) hbelow)).evolves

end Merges

/-! ## Archives from bytes and from folders -/

section Sources

variable {origin : Origin} {location : Location} {archive after : Archive}

/-- The file of an entry goes where the name of the entry leads, and its bytes stay in the
    stream. -/
theorem exists_of_addFile {entry : IndexEntry}
    (hrun : origin.addFile location archive entry = .ok after) :
    ∃ path position segments name, origin.names.resolve entry.key = .ok path ∧
      positionOf? entry.offset = some position ∧ Path.file? path = some (segments, name) ∧
      after = (archive.putFileAt location segments name
        (.deferred { stream := origin.stream, offset := UInt64.ofNat position })).1 := by
  rw [Origin.addFile] at hrun
  obtain ⟨path, hpath, hrun⟩ := Outcome.bind_eq_ok_iff.mp hrun
  split at hrun
  · cases hrun
  · next position hposition =>
    dsimp only at hrun
    split at hrun
    · cases hrun
    · next segments name hfile =>
      exact ⟨path, position, segments, name, hpath, hposition, hfile,
        (Except.ok.inj hrun).symm⟩

theorem grows_addEntry {entry : IndexEntry} (hlive : archive.Live location)
    (hrun : origin.addFile location archive entry = .ok after) : Grows archive after := by
  obtain ⟨path, position, segments, name, -, -, hfile, rfl⟩ := exists_of_addFile hrun
  exact grows_putFileAt _ hlive (fun _ => Path.plain_above_of_file? hfile)
    (Path.plain_of_file? hfile)

theorem grows_addEntries {entries : List IndexEntry} (hlive : archive.Live location)
    (hrun : origin.addFiles location archive entries = .ok after) : Grows archive after := by
  rw [Origin.addFiles] at hrun
  apply Outcome.foldlM_induct hrun (Grows.refl archive)
  intro entry _ before next hnext hgrows
  exact hgrows.trans (grows_addEntry (hgrows.live location hlive) hnext)

theorem addDirectories_cons (origin : Origin) (index : Index) (location : Location)
    (archive : Archive) (entry : IndexEntry) (entries : List IndexEntry) :
    origin.addDirectories index location archive (entry :: entries)
      = (do
        let name ← origin.names.resolve entry.key
        let (archive, place) := archive.enterAll location (Path.segments name)
        match index.child? entry.key with
        | none => .error (.corrupt (.noRecord name entry.key))
        | some child =>
          let archive ← origin.addFiles place archive child.label.files
          let archive ← origin.addDirectories child place archive child.label.directories
          origin.addDirectories index location archive entries) := by
  rw [Origin.addDirectories]
  cases origin.names.resolve entry.key with
  | error error => rfl
  | ok name =>
    rw [Outcome.ok_bind]
    dsimp only
    split
    · next hchild => rw [hchild]
    · next child hchild =>
      rw [hchild]
      dsimp only
      split
      · next error herror => rw [herror, Outcome.error_bind]
      · next filled hfiles =>
        rw [hfiles, Outcome.ok_bind]
        split
        · next error herror => rw [herror, Outcome.error_bind]
        · next deeper hbelow => rw [hbelow, Outcome.ok_bind]

/-- Directories are added one after another: the walk to each, its files, and what is below
    it. -/
theorem addDirectories_cons_eq_ok_iff {index : Index} {entry : IndexEntry}
    {entries : List IndexEntry} :
    origin.addDirectories index location archive (entry :: entries) = .ok after ↔
      ∃ name child filled deeper, origin.names.resolve entry.key = .ok name ∧
        index.child? entry.key = some child ∧
        origin.addFiles (archive.enterAll location (Path.segments name)).2
          (archive.enterAll location (Path.segments name)).1 child.label.files = .ok filled ∧
        origin.addDirectories child (archive.enterAll location (Path.segments name)).2 filled
          child.label.directories = .ok deeper ∧
        origin.addDirectories index location deeper entries = .ok after := by
  rw [addDirectories_cons, Outcome.bind_eq_ok_iff]
  refine exists_congr fun name => ?_
  cases index.child? entry.key with
  | none => simp
  | some child => simp [Outcome.bind_eq_ok_iff]

/-- Induction over a run that adds directories: what holds of no entry, and of an entry and
    those after it once it does of the entries below it and of those after it, holds of every
    run. -/
theorem addDirectories_induct
    {motive : Index → Location → Archive → List IndexEntry → Archive → Prop}
    (nil : ∀ index location archive, motive index location archive [] archive)
    (cons : ∀ index location archive entry entries name child filled deeper after,
      index.child? entry.key = some child →
      origin.addFiles (archive.enterAll location (Path.segments name)).2
        (archive.enterAll location (Path.segments name)).1 child.label.files = .ok filled →
      motive child (archive.enterAll location (Path.segments name)).2 filled
        child.label.directories deeper →
      motive index location deeper entries after →
      motive index location archive (entry :: entries) after)
    {index : Index} {entries : List IndexEntry}
    (hrun : origin.addDirectories index location archive entries = .ok after) :
    motive index location archive entries after := by
  -- The sizes go down as in the definition: to fewer records, or to fewer entries.
  induction hsize : index.below.size using Nat.strong_induction_on
    generalizing index location archive entries after with
  | _ size ihBelow =>
    induction entries generalizing archive with
    | nil =>
      rw [Origin.addDirectories] at hrun
      obtain rfl := Except.ok.inj hrun
      exact nil index location archive
    | cons entry entries ihRest =>
      obtain ⟨name, child, filled, deeper, -, hchild, hfiles, hbelow, hrest⟩ :=
        addDirectories_cons_eq_ok_iff.mp hrun
      have hdeeper := ihBelow child.below.size (hsize ▸ Origin.size_of_child? hchild) hbelow rfl
      exact cons _ _ _ _ _ name child filled deeper _ hchild hfiles hdeeper (ihRest hrest)

theorem grows_addDirectories {index : Index} {entries : List IndexEntry}
    (hlive : archive.Live location)
    (hrun : origin.addDirectories index location archive entries = .ok after) :
    Grows archive after := by
  refine addDirectories_induct (motive := fun _ location archive _ after =>
    archive.Live location → Grows archive after) ?_ ?_ hrun hlive
  · exact fun _ _ archive _ => Grows.refl archive
  · intro _ location archive _ _ name _ _ _ _ _ hfiles hbelow hrest hlive
    obtain ⟨hwalk, hend⟩ := grows_enterAll (Path.segments name) hlive
      fun name => Path.plain_of_mem_segments
    have hfilled := grows_addEntries hend hfiles
    have hgrows := hwalk.trans (hfilled.trans (hbelow (hfilled.live _ hend)))
    exact hgrows.trans (hrest (hgrows.live location hlive))

theorem grows_populate {index : Index} (hlive : archive.Live location)
    (hrun : origin.populate index location archive = .ok after) : Grows archive after := by
  obtain ⟨filled, hfiles, hbelow⟩ := Outcome.bind_eq_ok_iff.mp hrun
  have hfilled := grows_addEntries hlive hfiles
  exact hfilled.trans (grows_addDirectories (hfilled.live location hlive) hbelow)

/-- The parts of an archive come from the blocks, the first index and the names. -/
theorem exists_of_readParts {stream : StreamId} {bytes : Bytes} {parts : Parts}
    (hrun : readParts stream bytes = .ok parts) :
    ∃ payloads, readPayloads bytes = .ok payloads ∧
      Index.parse payloads.utf16 = .ok parts.index ∧
      NameTable.parse payloads.names = .ok parts.origin.names ∧ parts.origin.stream = stream := by
  obtain ⟨payloads, hpayloads, hrun⟩ := Outcome.bind_eq_ok_iff.mp hrun
  obtain ⟨index, hindex, hrun⟩ := Outcome.bind_eq_ok_iff.mp hrun
  obtain ⟨utf8Index, -, hrun⟩ := Outcome.bind_eq_ok_iff.mp hrun
  split at hrun
  · cases hrun
  · obtain ⟨names, hnames, hrun⟩ := Outcome.bind_eq_ok_iff.mp hrun
    obtain ⟨rootName, -, hrun⟩ := Outcome.bind_eq_ok_iff.mp hrun
    obtain rfl := Except.ok.inj hrun
    exact ⟨payloads, hpayloads, hindex, hnames, rfl⟩

/-- First come the files of the root, then the directories. -/
theorem exists_of_read {stream : StreamId} {bytes : Bytes} (hrun : read stream bytes = .ok after) :
    ∃ payloads index names rootName filled, readPayloads bytes = .ok payloads ∧
      Index.parse payloads.utf16 = .ok index ∧ NameTable.parse payloads.names = .ok names ∧
      Origin.addFiles { stream, names } [] (new rootName) index.label.files = .ok filled ∧
      Origin.addDirectories { stream, names } index [] filled index.label.directories
        = .ok after := by
  obtain ⟨⟨⟨stream', names⟩, index, name⟩, hparts, hpopulate⟩ := Outcome.bind_eq_ok_iff.mp hrun
  obtain ⟨payloads, hpayloads, hindex, hnames, hstream⟩ := exists_of_readParts hparts
  obtain rfl : stream' = stream := hstream
  obtain ⟨filled, hfiles, hbelow⟩ := Outcome.bind_eq_ok_iff.mp hpopulate
  exact ⟨payloads, index, names, name, filled, hpayloads, hindex, hnames, hfiles, hbelow⟩

/-- An archive that has been read is a new one after changes, whatever the bytes are. -/
theorem evolves_read {stream : StreamId} {bytes : Bytes} (hrun : read stream bytes = .ok after) :
    ∃ name, Evolves (new name) after := by
  obtain ⟨parts, -, hrun⟩ := Outcome.bind_eq_ok_iff.mp hrun
  exact ⟨parts.name, (grows_populate (live_nil _) hrun).evolves⟩

section Packing

variable [DiskLimits]

/-- A file that is packed is added, if its path is short enough; a folder and a link add
    nothing. -/
theorem packItem_eq_ok_iff {path : List String} {trail : Trail} {kind : ItemKind} :
    packItem path archive (trail, kind) = .ok after ↔
      match kind with
      | .file data => Folder.Followable (Folder.under path trail) ∧ ∃ address,
          archive.addFile rootId ("/".intercalate trail) (.ofBytes data) = .ok (after, address)
      | .folder => Folder.Followable (Folder.under path trail) ∧ archive = after
      | .link _ => archive = after := by
  cases kind with
  | file data =>
    rw [packItem]
    split
    · next hfollow =>
      rw [Outcome.bind_eq_ok_iff]
      constructor
      · rintro ⟨⟨added, address⟩, hadd, hdone⟩
        obtain rfl : added = after := Except.ok.inj hdone
        exact ⟨hfollow, address, hadd⟩
      · rintro ⟨-, address, hadd⟩
        exact ⟨(after, address), hadd, rfl⟩
    · next hfollow => exact iff_of_false (fun h => nomatch h) fun h => hfollow h.1
  | folder =>
    rw [packItem]
    split
    · next hfollow => rw [and_iff_right hfollow, Except.ok.injEq]
    · next hfollow => exact iff_of_false (fun h => nomatch h) fun h => hfollow h.1
  | link target => rw [packItem, Except.ok.injEq]

theorem evolves_packAll {path : List String} {items : List (Trail × ItemKind)}
    (h : archive.WellFormed) (hrun : archive.packAll path items = .ok after) :
    Evolves archive after := by
  rw [packAll] at hrun
  apply Outcome.foldlM_induct hrun (Evolves.refl archive)
  rintro ⟨trail, kind⟩ _ before next hnext hevolves
  have hstep := packItem_eq_ok_iff.mp hnext
  cases kind with
  | file data =>
    obtain ⟨-, address, hadd⟩ := hstep
    exact hevolves.trans (evolves_addFile (hevolves.wellFormed h) hadd)
  | folder => exact hstep.2 ▸ hevolves
  | link target =>
    obtain rfl : before = next := hstep
    exact hevolves

/-- A folder and a single file are both packed into a new archive under the name on the disk. -/
theorem exists_packAll_of_pack {disk : Folder} {path : List String}
    (hrun : pack disk path = .ok after) :
    ∃ name items, (new name).packAll path items = .ok after := by
  rw [pack] at hrun
  split at hrun
  · cases hrun
  · next trail _ =>
    refine ⟨trail.getLast?.getD "", ?_⟩
    dsimp only at hrun
    split at hrun
    · exact ⟨_, hrun⟩
    · split at hrun
      · -- A link to a file has nothing below it.
        exact ⟨[], hrun⟩
      · exact ⟨_, hrun⟩
    · cases hrun

/-- An archive that has been packed is a new one after changes. -/
theorem evolves_pack {disk : Folder} {path : List String} (hrun : pack disk path = .ok after) :
    ∃ name, Evolves (new name) after := by
  obtain ⟨name, items, hpack⟩ := exists_packAll_of_pack hrun
  exact ⟨name, evolves_packAll (wellFormed_new name) hpack⟩

end Packing

end Sources

end HashArchive.Archive
