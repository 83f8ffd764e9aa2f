/-
  HashArchive.Proofs.Archive.Overlay

  What a merge does: it lays the files of the source over those of the archive, in the
  order in which the source lists them, up to the first one that cannot be read
  (`merge_overlays`).  A part of a merge is described by the files that it gets to and the
  locations that it adds (`Merges`), so that parts compose.
-/
import Mathlib
import HashArchive.Proofs.Archive.Walks

namespace HashArchive

/-! ## Files that are put one after another -/

namespace Entry

/-- Puts files among others, one after another. -/
def putAll (copies entries : List Entry) : List Entry :=
  copies.foldl (fun entries copy => copy.put entries) entries

theorem ascending_putAll (copies : List Entry) {entries : List Entry} (h : Ascending entries) :
    Ascending (putAll copies entries) := by
  induction copies generalizing entries with
  | nil => exact h
  | cons copy copies ih => exact ih (ascending_put copy h)

theorem putAll_append (copies others entries : List Entry) :
    putAll (copies ++ others) entries = putAll others (putAll copies entries) :=
  List.foldl_append

/-- Of the files that are put under one key the last one stays, and of those that were there
    the ones whose keys are not used. -/
theorem mem_putAll {copies entries : List Entry} {entry : Entry} (h : Ascending entries) :
    entry ∈ putAll copies entries ↔
      (∃ before after, copies = before ++ entry :: after ∧
        ∀ later ∈ after, later.key ≠ entry.key) ∨
      entry ∈ entries ∧ ∀ copy ∈ copies, copy.key ≠ entry.key := by
  -- The last file takes the place of what the ones before it have left.
  induction copies using List.reverseRecOn with
  | nil => simp [putAll]
  | append_singleton copies last ih =>
    have hlast : putAll (copies ++ [last]) entries = last.put (putAll copies entries) :=
      putAll_append copies [last] entries
    rw [hlast, mem_put (ascending_putAll copies h), ih]
    constructor
    · rintro (rfl | ⟨⟨before, after, rfl, hafter⟩ | ⟨hmem, hkeys⟩, hne⟩)
      · exact Or.inl ⟨copies, [], rfl, by simp⟩
      · refine Or.inl ⟨before, after ++ [last], by simp, fun later hlater => ?_⟩
        rcases List.mem_append.mp hlater with hlater | hlater
        · exact hafter later hlater
        · rw [List.mem_singleton.mp hlater]
          exact hne.symm
      · refine Or.inr ⟨hmem, fun copy hcopy => ?_⟩
        rcases List.mem_append.mp hcopy with hcopy | hcopy
        · exact hkeys copy hcopy
        · rw [List.mem_singleton.mp hcopy]
          exact hne.symm
    · rintro (⟨before, after, heq, hafter⟩ | ⟨hmem, hkeys⟩)
      · rcases List.eq_nil_or_concat' after with rfl | ⟨front, other, rfl⟩
        · obtain ⟨-, hentry⟩ := List.append_inj' heq rfl
          exact Or.inl (List.singleton_inj.mp hentry).symm
        · rw [← List.cons_append, ← List.append_assoc] at heq
          obtain ⟨rfl, hother⟩ := List.append_inj' heq rfl
          obtain rfl := List.singleton_inj.mp hother
          exact Or.inr ⟨Or.inl ⟨before, front, rfl, fun later hlater =>
              hafter later (List.mem_append_left _ hlater)⟩,
            (hafter last (List.mem_append_right _ List.mem_cons_self)).symm⟩
      · exact Or.inr ⟨Or.inr ⟨hmem, fun copy hcopy => hkeys copy (List.mem_append_left _ hcopy)⟩,
          (hkeys last (List.mem_append_right _ List.mem_cons_self)).symm⟩

end Entry

namespace Archive

/-! ## Copies -/

namespace MergeMode

variable (mode : MergeMode)

/-- The copy of a file, if the file can be read. -/
def copy? (file : StoredFile) : Option Entry :=
  (file.entry.source.detached mode.streams).toOption.map fun source =>
    { name := file.entry.name, key := mode.key file.place.location file.entry.name, source }

/-- Why a file cannot be read. -/
def failure? (file : StoredFile) : Option ArchiveError :=
  match file.entry.source.detached mode.streams with
  | .ok _ => none
  | .error error => some error

/-- The files up to the first one that cannot be read. -/
def readable (files : List StoredFile) : List StoredFile :=
  files.takeWhile fun file => (file.entry.source.detached mode.streams).isOk

/-- The copies that files leave at a location. -/
def copiesAt (files : List StoredFile) (location : Location) : List Entry :=
  (files.filter (·.place.location = location)).filterMap mode.copy?

theorem copiesAt_append (files others : List StoredFile) (location : Location) :
    mode.copiesAt (files ++ others) location
      = mode.copiesAt files location ++ mode.copiesAt others location := by
  rw [copiesAt, List.filter_append, List.filterMap_append]
  rfl

theorem copiesAt_singleton {file : StoredFile} {copy : Entry} (h : mode.copy? file = some copy)
    (location : Location) :
    mode.copiesAt [file] location = if location = file.place.location then [copy] else [] := by
  rw [copiesAt, List.filter_singleton]
  by_cases heq : location = file.place.location
  · simp [heq, h]
  · simp [heq, Ne.symm heq]

theorem failure?_eq_none_iff {file : StoredFile} :
    mode.failure? file = none ↔ (file.entry.source.detached mode.streams).isOk := by
  rw [failure?]
  cases file.entry.source.detached mode.streams with
  | error error => simp [Except.isOk, Except.toBool]
  | ok source => simp [Except.isOk, Except.toBool]

theorem findSome?_failure?_eq_none_iff {files : List StoredFile} :
    files.findSome? mode.failure? = none ↔ mode.readable files = files := by
  rw [List.findSome?_eq_none_iff, readable, List.takeWhile_eq_self_iff]
  simp only [failure?_eq_none_iff]

/-- Files after one that cannot be read make no difference. -/
theorem readable_append (files others : List StoredFile) :
    mode.readable (files ++ others)
      = if files.findSome? mode.failure? = none then files ++ mode.readable others
        else mode.readable files := by
  split
  · next hnone =>
    apply List.takeWhile_append_of_pos
    intro file hmem
    exact mode.failure?_eq_none_iff.mp (List.findSome?_eq_none_iff.mp hnone file hmem)
  · next hsome =>
    rw [readable, List.takeWhile_append, if_neg]
    · rfl
    · intro hlength
      apply hsome
      rw [findSome?_failure?_eq_none_iff]
      exact (List.takeWhile_prefix _).eq_of_length hlength

end MergeMode

/-! ## Parts of a merge -/

/-- Goes on with a merge that has not stopped. -/
def Merging.andThen (run : Merging) (next : Archive → Merging) : Merging :=
  match run with
  | (archive, some error) => (archive, some error)
  | (archive, none) => next archive

/-- What a part of a merge does that gets to these files and adds directories at these
    locations. -/
structure Merges (mode : MergeMode) (files : List StoredFile) (locations : Set Location)
    (archive : Archive) (run : Merging) : Prop where
  failure : run.2 = files.findSome? mode.failure?
  held : ∀ location, run.1.held location
    = Entry.putAll (mode.copiesAt (mode.readable files) location) (archive.held location)
  keeps : Extends archive run.1
  only : ∀ location, run.1.Live location → archive.Live location ∨ location ∈ locations
  complete : run.2 = none → ∀ location ∈ locations, run.1.Live location

section Merges

variable {mode : MergeMode} {files others : List StoredFile} {locations further : Set Location}
  {archive : Archive} {location : Location} {run : Merging}

/-- Two parts of a merge, one after the other, are one part. -/
theorem Merges.andThen (h : Merges mode files locations archive run) (next : Archive → Merging)
    (hnext : run.2 = none → Merges mode others further run.1 (next run.1)) :
    Merges mode (files ++ others) (locations ∪ further) archive (run.andThen next) := by
  obtain ⟨middle, stop⟩ := run
  cases stop with
  | some error =>
    -- The first part has stopped, so the files of the second are not got to.
    have hstop : files.findSome? mode.failure? = some error := h.failure.symm
    constructor
    · rw [List.findSome?_append, hstop]
      rfl
    · intro location
      rw [mode.readable_append, if_neg (by simp [hstop])]
      exact h.held location
    · exact h.keeps
    · exact fun location hlive => (h.only location hlive).imp_right (Or.inl ·)
    · intro hnone
      cases hnone
  | none =>
    have hgoes : files.findSome? mode.failure? = none := h.failure.symm
    have hthen := hnext rfl
    constructor
    · rw [List.findSome?_append, hgoes]
      exact hthen.failure
    · intro location
      have hall := mode.findSome?_failure?_eq_none_iff.mp hgoes
      rw [mode.readable_append, if_pos hgoes, mode.copiesAt_append, Entry.putAll_append]
      have hfirst := h.held location
      rw [hall] at hfirst
      rw [← hfirst]
      exact hthen.held location
    · exact h.keeps.trans hthen.keeps
    · intro location hlive
      rcases hthen.only location hlive with hlive | hmem
      · exact (h.only location hlive).imp_right (Or.inl ·)
      · exact Or.inr (Or.inr hmem)
    · rintro hnone location (hmem | hmem)
      · exact hthen.keeps.live (h.complete rfl location hmem)
      · exact hthen.complete hnone location hmem

/-- Only the directories that are missing count. -/
theorem Merges.of_iff (h : Merges mode files locations archive run)
    (hiff : ∀ location, ¬ archive.Live location → (location ∈ locations ↔ location ∈ further)) :
    Merges mode files further archive run := by
  refine ⟨h.failure, h.held, h.keeps, fun location hlive => ?_, fun hnone location hmem => ?_⟩
  · by_cases hthere : archive.Live location
    · exact Or.inl hthere
    · exact (h.only location hlive).imp_right (hiff location hthere).mp
  · by_cases hthere : archive.Live location
    · exact h.keeps.live hthere
    · exact h.complete hnone location ((hiff location hthere).mpr hmem)

end Merges

/-! ## The parts -/

/-- The files of a directory as they are listed. -/
def storedFiles (place : Place) : List StoredFile :=
  place.tree.label.listing.map fun entry => ⟨place, entry⟩

section Parts

variable (mode : MergeMode) {archive : Archive} {location : Location}

/-- A part of a merge that does nothing. -/
theorem Merges.none (archive : Archive) :
    Merges mode [] ∅ archive (archive, none) :=
  ⟨rfl, fun _ => rfl, Extends.refl archive, fun _ => Or.inl, fun _ _ hmem => hmem.elim⟩

theorem merges_mergeFiles (place : Place) (entries : List Entry)
    (hlive : archive.Live place.location) :
    Merges mode (entries.map fun entry => ⟨place, entry⟩) ∅ archive
      (mergeFiles mode place.location entries archive) := by
  induction entries generalizing archive with
  | nil => exact Merges.none mode archive
  | cons entry entries ih =>
    set file : StoredFile := ⟨place, entry⟩ with hfile
    rw [List.map_cons, mergeFiles]
    cases hsource : entry.source.detached mode.streams with
    | error error =>
      have hfailure : mode.failure? file = some error := by rw [MergeMode.failure?, hsource]
      refine ⟨?_, fun other => ?_, Extends.refl archive, fun _ => Or.inl, fun _ _ hmem => hmem.elim⟩
      · rw [List.findSome?_cons, hfailure]
      · rw [MergeMode.readable, List.takeWhile_cons, hsource]
        rfl
    | ok source =>
      set copy : Entry := { name := entry.name, key := mode.key place.location entry.name, source }
      have hcopy : mode.copy? file = some copy := by
        rw [MergeMode.copy?, hsource]
        rfl
      have hfailure : mode.failure? file = none := by rw [MergeMode.failure?, hsource]
      have hput : Merges mode [file] ∅ archive (archive.putFile place.location copy, none) := by
        refine ⟨?_, fun other => ?_, extends_putFile _ _ _, fun other h => Or.inl ?_,
          fun _ _ hmem => hmem.elim⟩
        · rw [List.findSome?_cons, hfailure]
          rfl
        · have hall : mode.readable [file] = [file] :=
            mode.findSome?_failure?_eq_none_iff.mp (by rw [List.findSome?_cons, hfailure]; rfl)
          rw [held_putFile hlive, hall, mode.copiesAt_singleton hcopy]
          split
          · next heq => rw [heq, Entry.putAll, List.foldl_cons, List.foldl_nil]
          · rfl
        · exact live_putFile.mp h
      have hrest := hput.andThen (mergeFiles mode place.location entries) fun _ =>
        ih (live_putFile.mpr hlive)
      rw [Set.union_empty] at hrest
      exact hrest

theorem merges_mergeSubdirectories (hlive : archive.Live location) (below : Forest Directory) :
    Merges mode [] {child | ∃ tree ∈ below.trees, child = location ++ [tree.label.name]} archive
      (mergeSubdirectories location below archive, none) := by
  rw [mergeSubdirectories]
  generalize below.trees = trees
  induction trees with
  | nil => simpa using Merges.none mode archive
  | cons tree trees ih =>
    -- The first subdirectory is entered last, after all that the induction is about.
    rw [List.reverse_cons, List.foldl_append]
    set before := trees.reverse.foldl
      (fun archive tree => (archive.enter location (.name tree.label.name)).1) archive
    have hthere : before.Live location := ih.keeps.live hlive
    have hlook := live_enter hthere (.name tree.label.name)
    have hstep : Merges mode [] {location ++ [tree.label.name]} before
        ((before.enter location (.name tree.label.name)).1, none) := by
      refine ⟨rfl, held_enter hthere _, extends_enter hthere _, fun other h => ?_, ?_⟩
      · exact ((hlook other).mp h).symm
      · rintro - other rfl
        exact (hlook _).mpr (Or.inl rfl)
    have hboth := ih.andThen
      (fun archive => ((archive.enter location (.name tree.label.name)).1, .none)) fun _ => hstep
    refine hboth.of_iff fun child _ => ?_
    simp

/-- A directory is merged with its files and without what its subdirectories hold. -/
theorem merges_mergeDirectory (tree : Tree Directory) (hlive : archive.Live location) :
    Merges mode (storedFiles ⟨location, tree⟩)
      {child | ∃ below ∈ tree.below.trees, child = location ++ [below.label.name]} archive
      (mergeDirectory mode location tree archive) := by
  have hfiles := merges_mergeFiles mode ⟨location, tree⟩ tree.label.listing hlive
  have hboth := hfiles.andThen
    (fun archive => (mergeSubdirectories location tree.below archive, .none))
    fun _ => merges_mergeSubdirectories mode (hfiles.keeps.live hlive) tree.below
  rw [List.append_nil, Set.empty_union] at hboth
  exact hboth

/-- Directories that are there already are merged with all below them. -/
theorem merges_mergeForest {forest : Forest Directory} {above : Location}
    (hlive : ∀ tree ∈ forest.trees, archive.Live (above ++ [tree.label.name])) :
    Merges mode ((forest.places above).flatMap storedFiles)
      {location | ∃ place ∈ forest.places above, place.location = location} archive
      (mergeForest mode forest above archive) := by
  induction forest generalizing above archive with
  | nil => simpa [Forest.places, mergeForest] using Merges.none mode archive
  | cons directory below rest ihBelow ihRest =>
    have hhead := hlive ⟨directory, below⟩ List.mem_cons_self
    have hdirectory := merges_mergeDirectory mode ⟨directory, below⟩ hhead
    have hwhole := hdirectory.andThen (fun archive =>
        (mergeForest mode below (above ++ [directory.name]) archive).andThen
          (mergeForest mode rest above)) fun hnone => by
      -- The directory has been merged, so those directly below it are there.
      have hinside := ihBelow fun tree hmem => hdirectory.complete hnone _ ⟨tree, hmem, rfl⟩
      refine hinside.andThen (mergeForest mode rest above) fun _ => ihRest fun tree hmem => ?_
      exact hinside.keeps.live (hdirectory.keeps.live (hlive tree (List.mem_cons_of_mem _ hmem)))
    rw [Forest.places, List.flatMap_cons, List.flatMap_append]
    refine hwhole.of_iff fun location hmissing => ?_
    have hne : location ≠ above ++ [directory.name] := by
      rintro rfl
      exact hmissing hhead
    -- The directory itself is there, and those directly below it are among those below it.
    simp only [Set.mem_union, Set.mem_ofPred_eq, List.mem_cons, List.mem_append]
    constructor
    · rintro (⟨tree, hmem, rfl⟩ | ⟨place, hmem, rfl⟩ | ⟨place, hmem, rfl⟩)
      · exact ⟨_, Or.inr (Or.inl (Forest.mem_places_of_mem_trees hmem _)), rfl⟩
      · exact ⟨place, Or.inr (Or.inl hmem), rfl⟩
      · exact ⟨place, Or.inr (Or.inr hmem), rfl⟩
    · rintro ⟨place, rfl | hmem | hmem, rfl⟩
      · exact absurd rfl hne
      · exact Or.inr (Or.inl ⟨place, hmem, rfl⟩)
      · exact Or.inr (Or.inr ⟨place, hmem, rfl⟩)

/-- A merge gets to the files of the source in the order in which they are listed. -/
theorem merges_merge (archive source : Archive) (streams : Streams) (keepDuplicates : Bool) :
    Merges { streams, keepDuplicates, sourceName := source.name } source.files
      {location | ∃ place ∈ source.places, place.location = location}
      { archive with policy := { archive.policy with keepDuplicates } }
      (archive.merge source streams keepDuplicates) := by
  set start : Archive := { archive with policy := { archive.policy with keepDuplicates } }
  set mode : MergeMode := { streams, keepDuplicates, sourceName := source.name }
  have hroot := merges_mergeDirectory mode source.root (live_nil start)
  have hwhole := hroot.andThen (mergeForest mode source.root.below []) fun hnone =>
    merges_mergeForest mode fun tree hmem => hroot.complete hnone _ ⟨tree, hmem, rfl⟩
  refine hwhole.of_iff fun location hmissing => ?_
  have hne : location ≠ [] := by
    rintro rfl
    exact hmissing (live_nil start)
  simp only [Set.mem_union, Set.mem_ofPred_eq, places, List.mem_cons]
  constructor
  · rintro (⟨tree, hmem, rfl⟩ | ⟨place, hmem, rfl⟩)
    · exact ⟨_, Or.inr (Forest.mem_places_of_mem_trees hmem []), rfl⟩
    · exact ⟨place, Or.inr hmem, rfl⟩
  · rintro ⟨place, rfl | hmem, rfl⟩
    · exact absurd rfl hne
    · exact Or.inr ⟨place, hmem, rfl⟩

end Parts

/-! ## Who stays -/

/-- The key under which a merge puts the copy of a file. -/
def copyKey (source : Archive) (keepDuplicates : Bool) (file : StoredFile) : String :=
  if keepDuplicates then source.fullPath file else file.entry.name

/-- A file as a merge copies it. -/
structure IsCopy (source : Archive) (streams : Streams) (keepDuplicates : Bool)
    (file : StoredFile) (copy : Entry) : Prop where
  name_eq : copy.name = file.entry.name
  key_eq : copy.key = source.copyKey keepDuplicates file
  content : file.entry.source.detached streams = .ok copy.source

section Copies

variable {source : Archive} {streams : Streams} {keepDuplicates : Bool} {mode : MergeMode}

theorem copy?_eq_some_iff {file : StoredFile} {copy : Entry} :
    MergeMode.copy? { streams, keepDuplicates, sourceName := source.name } file = some copy ↔
      source.IsCopy streams keepDuplicates file copy := by
  rw [MergeMode.copy?]
  dsimp only
  cases hsource : file.entry.source.detached streams with
  | error error =>
    constructor
    · intro hnone
      cases hnone
    · rintro ⟨-, -, hcontent⟩
      cases hsource.symm.trans hcontent
  | ok content =>
    constructor
    · intro hsome
      obtain rfl := Option.some.inj hsome
      exact ⟨rfl, rfl, hsource⟩
    · rintro ⟨hname, hkey, hcontent⟩
      obtain rfl := Except.ok.inj (hsource.symm.trans hcontent)
      exact congrArg some (Entry.mk.injEq .. ▸ ⟨hname.symm, hkey.symm, rfl⟩)

/-- Copies for one directory have one key if and only if the files have one name. -/
theorem copyKey_eq_iff {file other : StoredFile}
    (hlocation : other.place.location = file.place.location) :
    source.copyKey keepDuplicates other = source.copyKey keepDuplicates file ↔
      other.entry.name = file.entry.name := by
  rw [copyKey, copyKey]
  split
  · rw [fullPath, fullPath, hlocation]
    exact String.append_right_inj _
  · rfl

theorem exists_isCopy_iff {file : StoredFile} :
    (∃ copy, source.IsCopy streams keepDuplicates file copy) ↔
      (file.entry.source.detached streams).isOk := by
  constructor
  · rintro ⟨copy, hcopy⟩
    rw [hcopy.content]
    rfl
  · intro hok
    obtain ⟨content, hcontent⟩ := Outcome.exists_of_isOk hok
    exact ⟨{ name := file.entry.name, key := source.copyKey keepDuplicates file, source := content },
      rfl, rfl, hcontent⟩

end Copies

/-- Among the files of one name in one directory, this is the one with the greatest key. -/
def Prevails (files : List StoredFile) (file : StoredFile) : Prop :=
  file ∈ files ∧ ∀ other ∈ files, other.place.location = file.place.location →
    other.entry.name = file.entry.name → other.entry.key ≤ file.entry.key

section Prevails

variable {source : Archive} {streams : Streams} {keepDuplicates : Bool} {files : List StoredFile}
  {location : Location} {copy : Entry}

/-- Of the files of one name in a directory those with the lesser keys come first. -/
theorem pairwise_filter_location (h : source.WellFormed) (hfront : files <+: source.files)
    (location : Location) :
    (files.filter (·.place.location = location)).Pairwise fun file other =>
      other.entry.name = file.entry.name → file.entry.key < other.entry.key := by
  have hsorted := ((pairwise_files h).sublist hfront.sublist).sublist
    (List.filter_sublist (p := (·.place.location = location)))
  refine hsorted.imp_of_mem fun {file other} hfile hother hbefore hname => ?_
  have hlocation : file.place.location = location := by simpa using (List.mem_filter.mp hfile).2
  have hlocation' : other.place.location = location := by
    simpa using (List.mem_filter.mp hother).2
  exact Entry.key_lt_of_before (hbefore (hlocation.trans hlocation'.symm)) hname.symm

/-- The copies that no later one of the same key follows are those of the files that prevail. -/
theorem exists_last_copy_iff (h : source.WellFormed) (hfront : files <+: source.files)
    (hread : ∀ file ∈ files, (file.entry.source.detached streams).isOk) :
    (∃ before after, MergeMode.copiesAt { streams, keepDuplicates, sourceName := source.name }
          files location = before ++ copy :: after ∧ ∀ later ∈ after, later.key ≠ copy.key) ↔
      ∃ file, Prevails files file ∧ file.place.location = location ∧
        source.IsCopy streams keepDuplicates file copy := by
  set mode : MergeMode := { streams, keepDuplicates, sourceName := source.name }
  set here := files.filter (·.place.location = location) with hhere
  have hmem : ∀ {file}, file ∈ here ↔ file ∈ files ∧ file.place.location = location := by
    simp [hhere]
  have horder := pairwise_filter_location h hfront location
  rw [← hhere] at horder
  rw [MergeMode.copiesAt, ← hhere]
  constructor
  · rintro ⟨before, after, hsplit, hlast⟩
    obtain ⟨front, back, hparts, -, hback⟩ := List.filterMap_eq_append_iff.mp hsplit
    obtain ⟨skipped, file, rest, rfl, -, hcopy, rfl⟩ := List.filterMap_eq_cons_iff.mp hback
    have hcopy := copy?_eq_some_iff.mp hcopy
    have hfile : file ∈ here := by simp [hparts]
    refine ⟨file, ⟨(hmem.mp hfile).1, fun other hother hsame hname => ?_⟩, (hmem.mp hfile).2, hcopy⟩
    have hother' : other ∈ here := hmem.mpr ⟨hother, hsame.trans (hmem.mp hfile).2⟩
    rw [hparts, ← List.append_assoc, List.pairwise_append] at horder
    rw [hparts, ← List.append_assoc, List.mem_append, List.mem_cons] at hother'
    rcases hother' with hearlier | rfl | hlater
    · exact le_of_lt (horder.2.2 other hearlier file List.mem_cons_self hname.symm)
    · exact le_refl _
    · -- A later file of the name would have left a copy under the same key.
      obtain ⟨later, hlatercopy⟩ := exists_isCopy_iff.mpr (hread other hother)
      have hleft : later ∈ rest.filterMap mode.copy? :=
        List.mem_filterMap.mpr ⟨other, hlater, copy?_eq_some_iff.mpr hlatercopy⟩
      apply absurd _ (hlast later hleft)
      rw [hlatercopy.key_eq, hcopy.key_eq]
      exact (copyKey_eq_iff hsame).mpr hname
  · rintro ⟨file, ⟨hfile, hgreatest⟩, hlocation, hcopy⟩
    obtain ⟨front, rest, hparts⟩ := List.append_of_mem (hmem.mpr ⟨hfile, hlocation⟩)
    refine ⟨front.filterMap mode.copy?, rest.filterMap mode.copy?, ?_, fun later hlater hkey => ?_⟩
    · rw [hparts, List.filterMap_append, List.filterMap_cons, copy?_eq_some_iff.mpr hcopy]
    · obtain ⟨other, hother, hlatercopy⟩ := List.mem_filterMap.mp hlater
      have hlatercopy := copy?_eq_some_iff.mp hlatercopy
      have hthere := hmem.mp (hparts ▸ List.mem_append_right _ (List.mem_cons_of_mem _ hother))
      have hsame := hthere.2.trans hlocation.symm
      rw [hlatercopy.key_eq, hcopy.key_eq, copyKey_eq_iff hsame] at hkey
      rw [hparts, List.pairwise_append, List.pairwise_cons] at horder
      exact absurd (hgreatest other hthere.1 hsame hkey)
        (not_le_of_gt (horder.2.1.1 other hother hkey))

/-- The keys of the copies are those under which the files are put. -/
theorem forall_copiesAt_key_ne_iff
    (hread : ∀ file ∈ files, (file.entry.source.detached streams).isOk) {key : String} :
    (∀ copy ∈ MergeMode.copiesAt { streams, keepDuplicates, sourceName := source.name } files
        location, copy.key ≠ key) ↔
      ∀ file ∈ files, file.place.location = location →
        source.copyKey keepDuplicates file ≠ key := by
  rw [MergeMode.copiesAt]
  constructor
  · intro hne file hmem hlocation
    obtain ⟨copy, hcopy⟩ := exists_isCopy_iff.mpr (hread file hmem)
    rw [← hcopy.key_eq]
    refine hne copy (List.mem_filterMap.mpr ⟨file, ?_, copy?_eq_some_iff.mpr hcopy⟩)
    exact List.mem_filter.mpr ⟨hmem, decide_eq_true hlocation⟩
  · intro hne copy hmem
    obtain ⟨file, hfile, hcopy⟩ := List.mem_filterMap.mp hmem
    obtain ⟨hfile, hlocation⟩ := List.mem_filter.mp hfile
    rw [(copy?_eq_some_iff.mp hcopy).key_eq]
    exact hne file hfile (of_decide_eq_true hlocation)

end Prevails

/-! ## The main statement -/

/-- What an archive is after files of a source have been laid over it. -/
structure Overlaid (archive source : Archive) (streams : Streams) (keepDuplicates : Bool)
    (files : List StoredFile) (after : Archive) : Prop where
  name_eq : after.name = archive.name
  policy_eq : after.policy = { archive.policy with keepDuplicates }
  ids : ∀ location, archive.Live location → after.idAt location = archive.idAt location
  only : ∀ location, after.Live location → archive.Live location ∨ source.Live location
  /-- The copies come in the order of the list. -/
  held : ∀ location, after.held location = Entry.putAll
    (MergeMode.copiesAt { streams, keepDuplicates, sourceName := source.name } files location)
    (archive.held location)
  /-- Of the copies for one key one stays, and of what was there all that has another key. -/
  entries : ∀ location entry, entry ∈ after.held location ↔
    (∃ file, Prevails files file ∧ file.place.location = location ∧
      source.IsCopy streams keepDuplicates file entry) ∨
    entry ∈ archive.held location ∧ ∀ file ∈ files, file.place.location = location →
      source.copyKey keepDuplicates file ≠ entry.key
  linked : after.Linked

section Overlaid

variable {archive source : Archive} {streams : Streams} {keepDuplicates : Bool}
  {files : List StoredFile}

/-- A merge lays over an archive the files up to the first that cannot be read. -/
theorem overlaid_of_readable (h : archive.WellFormed) (h' : source.WellFormed)
    (hreadable : MergeMode.readable { streams, keepDuplicates, sourceName := source.name }
      source.files = files) :
    Overlaid archive source streams keepDuplicates files
      (archive.merge source streams keepDuplicates).1 := by
  have hmerges := merges_merge archive source streams keepDuplicates
  set mode : MergeMode := { streams, keepDuplicates, sourceName := source.name } with hmode
  have hfront : files <+: source.files := hreadable ▸ List.takeWhile_prefix _
  have hread : ∀ file ∈ files, (file.entry.source.detached streams).isOk := by
    intro file hmem
    rw [← hreadable, MergeMode.readable] at hmem
    exact List.mem_takeWhile_imp
      (p := fun file : StoredFile => (file.entry.source.detached streams).isOk) hmem
  have hheld : ∀ location, (archive.merge source streams keepDuplicates).1.held location
      = Entry.putAll (mode.copiesAt files location) (archive.held location) := by
    intro location
    rw [hmerges.held, hreadable]
    rfl
  refine ⟨hmerges.keeps.name_eq, hmerges.keeps.policy_eq, hmerges.keeps.ids, fun location hlive => ?_,
    hheld, fun location entry => ?_, ?_⟩
  · rcases hmerges.only location hlive with hthere | ⟨place, hplace, rfl⟩
    · exact Or.inl hthere
    · exact Or.inr (live_of_mem_places h' hplace)
  · rw [hheld, Entry.mem_putAll (ascending_held h location), exists_last_copy_iff h' hfront hread,
      forall_copiesAt_key_ne_iff hread]
  · exact linked_of_wellFormed ((evolves_merge h' archive streams keepDuplicates).wellFormed h)

/-- A merge is an exact overlay.  When all files of the source can be read, all of them are laid
    over the archive, and its directories are those of both.  Otherwise the merge fails as the
    first of them does that cannot be read, and the files before that one have been laid over
    the archive. -/
theorem merge_overlays (h : Reachable archive) (h' : Reachable source) (streams : Streams)
    (keepDuplicates : Bool) :
    ((∀ file ∈ source.files, (file.entry.source.detached streams).isOk) →
      ∃ after, archive.merge source streams keepDuplicates = (after, none) ∧
        Overlaid archive source streams keepDuplicates source.files after ∧
        ∀ location, after.Live location ↔ archive.Live location ∨ source.Live location) ∧
    ∀ front file rest error, source.files = front ++ file :: rest →
      (∀ earlier ∈ front, (earlier.entry.source.detached streams).isOk) →
      file.entry.source.detached streams = .error error →
      ∃ after, archive.merge source streams keepDuplicates = (after, some error) ∧
        Overlaid archive source streams keepDuplicates front after := by
  have hmerges := merges_merge archive source streams keepDuplicates
  set mode : MergeMode := { streams, keepDuplicates, sourceName := source.name }
  set run := archive.merge source streams keepDuplicates with hrun
  constructor
  · intro hread
    have hall : mode.readable source.files = source.files := List.takeWhile_eq_self_iff.mpr hread
    have hnone : run.2 = none :=
      hmerges.failure.trans (mode.findSome?_failure?_eq_none_iff.mpr hall)
    refine ⟨run.1, Prod.ext rfl hnone, overlaid_of_readable h.wellFormed h'.wellFormed hall,
      fun location => ⟨fun hlive => ?_, ?_⟩⟩
    · exact (overlaid_of_readable h.wellFormed h'.wellFormed hall).only location hlive
    · rintro (hlive | hlive)
      · exact hmerges.keeps.live hlive
      · obtain ⟨place, hplace, rfl⟩ :=
          List.mem_map.mp ((mem_locations_iff h'.wellFormed).mpr hlive)
        exact hmerges.complete hnone _ ⟨place, hplace, rfl⟩
  · intro front file rest error hsplit hfront hfile
    have hok : mode.readable front = front := List.takeWhile_eq_self_iff.mpr hfront
    have hnone := mode.findSome?_failure?_eq_none_iff.mpr hok
    have hsome : run.2 = some error := by
      rw [hmerges.failure, hsplit, List.findSome?_append, hnone, List.findSome?_cons,
        MergeMode.failure?, hfile]
      rfl
    have hreadable : mode.readable source.files = front := by
      rw [hsplit, mode.readable_append, if_pos hnone, MergeMode.readable, List.takeWhile_cons, hfile]
      exact List.append_nil front
    exact ⟨run.1, Prod.ext rfl hsome, overlaid_of_readable h.wellFormed h'.wellFormed hreadable⟩

end Overlaid

/-- An archive with one file in a directory. -/
def shelf : Archive where
  root := ⟨{ id := rootId, name := "shelf" },
    .cons { id := 1, name := "a", files := [⟨"x", "x", .ofBytes [0x6F]⟩] } .nil .nil⟩
  nextId := 2

/-- A directory with a file that is in a stream. -/
def undelivered : Tree Directory where
  label := { id := 2, name := "b", files := [⟨"y", "y", .deferred { stream := 0, offset := 0 }⟩] }
  below := .nil

/-- An archive with a file of the same path, and with that directory. -/
def delivery : Archive where
  root := ⟨{ id := rootId, name := "delivery" },
    .cons { id := 1, name := "a", files := [⟨"x", "x", .ofBytes [0x74]⟩] } .nil
      (.cons undelivered.label undelivered.below .nil)⟩
  nextId := 3

/-- Streams that end before a header does. -/
def shortStreams : Streams := fun _ => { bytes := [0x01] }

theorem reachable_shelf : Reachable shelf := by
  have hadd : (new "shelf").addFile rootId "a/x" (.ofBytes [0x6F]) = .ok (shelf, ⟨["a"], "x"⟩) := by
    rfl
  exact .addFile (.new "shelf") hadd

theorem reachable_delivery : Reachable delivery := by
  have hfirst : (new "delivery").addFile rootId "a/x" (.ofBytes [0x74])
      = .ok (shelf.setName "delivery" |>.updateSource ⟨["a"], "x"⟩ fun _ => .ofBytes [0x74],
        ⟨["a"], "x"⟩) := by rfl
  have hsecond : (shelf.setName "delivery" |>.updateSource ⟨["a"], "x"⟩ fun _ =>
      .ofBytes [0x74]).addFile rootId "b/y" (.deferred { stream := 0, offset := 0 })
      = .ok (delivery, ⟨["b"], "y"⟩) := by rfl
  exact .addFile (.addFile (.new "delivery") hfirst) hsecond

/-- A merge that stops at its second file has replaced one that was there.  One that goes through
    and keeps duplicates adds a second file of the same name. -/
theorem merge_overlays_delivery :
    (∃ after, shelf.merge delivery shortStreams false = (after, some .endOfStream) ∧
      Overlaid shelf delivery shortStreams false (delivery.files.take 1) after ∧
      after.held ["a"] = [⟨"x", "x", .ofBytes [0x74]⟩]) ∧
    ∃ after, shelf.merge shelf shortStreams true = (after, none) ∧
      Overlaid shelf shelf shortStreams true shelf.files after ∧
      after.held ["a"] = [⟨"x", "shelf/a/x", .ofBytes [0x6F]⟩, ⟨"x", "x", .ofBytes [0x6F]⟩] := by
  obtain ⟨-, hstops⟩ := merge_overlays reachable_shelf reachable_delivery shortStreams false
  obtain ⟨hgoes, -⟩ := merge_overlays reachable_shelf reachable_shelf shortStreams true
  have hfiles : delivery.files = delivery.files.take 1
      ++ [⟨⟨["b"], undelivered⟩, ⟨"y", "y", .deferred { stream := 0, offset := 0 }⟩⟩] := by
    decide +kernel
  constructor
  · obtain ⟨after, hrun, hoverlaid⟩ := hstops _ _ _ .endOfStream hfiles (by decide +kernel) (by rfl)
    refine ⟨after, hrun, hoverlaid, ?_⟩
    rw [hoverlaid.held]
    decide +kernel
  · obtain ⟨after, hrun, hoverlaid, -⟩ := hgoes (by decide +kernel)
    refine ⟨after, hrun, hoverlaid, ?_⟩
    rw [hoverlaid.held]
    decide +kernel

end Archive

end HashArchive
