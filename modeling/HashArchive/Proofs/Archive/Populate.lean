/-
  HashArchive.Proofs.Archive.Populate

  What the reader makes of an index that was built for a tree of directories.  The index
  lists siblings and files in the order of their keys, so the statements are about what
  is found at each location afterwards and not about the order of the steps (`Filled`).
-/
import Mathlib
import HashArchive.Archive.Read
import HashArchive.Proofs.Archive.Mirror
import HashArchive.Proofs.Archive.Operations
import HashArchive.Proofs.Index.Nested

namespace HashArchive

namespace Entry

/-- A file with a new key comes to the others. -/
theorem put_perm {entry : Entry} {entries : List Entry}
    (h : ∀ other ∈ entries, other.key ≠ entry.key) :
    (entry.put entries).Perm (entry :: entries) := by
  induction entries with
  | nil => exact List.Perm.refl _
  | cons first rest ih =>
    have hfirst := h first List.mem_cons_self
    have hrest := ih fun other hmem => h other (List.mem_cons_of_mem _ hmem)
    rw [put, if_neg hfirst]
    split
    · exact (hrest.cons first).trans (List.Perm.swap _ _ _)
    · exact List.Perm.refl _

end Entry

namespace Archive

/-- The files of the directory at a location. -/
def filesAt (archive : Archive) (location : Location) : Option (List Entry) :=
  (archive.directory? location).map (·.files)

section FilesAt

variable {archive : Archive} {location other : Location}

theorem live_iff_filesAt : archive.Live location ↔ (archive.filesAt location).isSome := by
  rw [live_iff, filesAt, Option.isSome_map]

theorem filesAt_of_not_live (h : ¬ archive.Live location) : archive.filesAt location = none := by
  rw [← Option.not_isSome_iff_eq_none, ← live_iff_filesAt]
  exact h

/-- Below a location that is no directory there is none. -/
theorem filesAt_append_of_not_live (h : ¬ archive.Live location) (more : Location) :
    archive.filesAt (location ++ more) = none :=
  filesAt_of_not_live fun hlive => h (Tree.isSome_of_descend?_append hlive)

theorem filesAt_putFile (archive : Archive) (location other : Location) (entry : Entry) :
    (archive.putFile location entry).filesAt other
      = if other = location then (archive.filesAt location).map entry.put
        else archive.filesAt other := by
  rw [filesAt, directory?_putFile]
  split
  · rw [filesAt, Option.map_map, Option.map_map]
    rfl
  · rfl

theorem filesAt_addDirectory {name : String} (hlive : archive.Live location)
    (hmissing : ¬ archive.Live (location ++ [name])) (other : Location) :
    (archive.addDirectory location name).filesAt other
      = if other = location ++ [name] then some [] else archive.filesAt other := by
  rw [filesAt, directory?_addDirectory hlive hmissing]
  split
  · rfl
  · rfl

end FilesAt

/-! ## Files -/

/-- The reader finds the names of a directory's files, and their offsets lie in the archive. -/
structure ReadsFiles (origin : Origin) (plan : Index.Plan) (location : Location)
    (directory : Directory) : Prop where
  sound : directory.Sound
  bare : ∀ entry ∈ directory.files, entry.key = entry.name
  names : ∀ entry ∈ directory.files,
    origin.names.resolve (Name.key plan.encoding entry.name) = .ok entry.name
  offsets : ∀ entry ∈ directory.files, (positionOf? (plan.offsetAt location entry)).isSome

/-- The source that a file has after it has been read back. -/
def sourceAt (origin : Origin) (plan : Index.Plan) (location : Location) (entry : Entry) : Source :=
  .deferred
    { stream := origin.stream
      offset := UInt64.ofNat ((positionOf? (plan.offsetAt location entry)).getD 0) }

/-- A file as it is after it has been read back. -/
def readBack (origin : Origin) (plan : Index.Plan) (location : Location) (entry : Entry) : Entry :=
  { entry with source := sourceAt origin plan location entry }

section Files

variable {origin : Origin} {plan : Index.Plan} {location : Location} {archive : Archive}
  {directory : Directory}

theorem addFile_entryAt (hpolicy : archive.policy.keepDuplicates = false)
    (hreads : ReadsFiles origin plan location directory) {entry : Entry}
    (hmem : entry ∈ directory.files) :
    origin.addFile location archive (plan.entryAt location entry)
      = .ok (archive.putFile location (readBack origin plan location entry)) := by
  obtain ⟨position, hposition⟩ := Option.isSome_iff_exists.mp (hreads.offsets entry hmem)
  have hfile := Path.file?_of_plain (hreads.sound.entries entry hmem).plain
  rw [Origin.addFile]
  dsimp only [Index.Plan.entryAt]
  rw [hreads.names entry hmem, Outcome.ok_bind, hposition]
  dsimp only
  rw [hfile]
  dsimp only
  simp only [putFileAt, enterAll, List.foldl_nil, hpolicy, Bool.false_eq_true, if_false]
  rw [readBack, sourceAt, hposition, Option.getD_some, ← hreads.bare entry hmem]
  rfl

/-- The files of a record come to those that are there, where all keys are different. -/
theorem addFiles_map_entryAt (hpolicy : archive.policy.keepDuplicates = false)
    (hreads : ReadsFiles origin plan location directory) {order there : List Entry}
    (horder : ∀ entry ∈ order, entry ∈ directory.files)
    (hnodup : (order.map (·.key)).Nodup)
    (hfresh : ∀ entry ∈ order, ∀ other ∈ there, other.key ≠ entry.key)
    (hthere : archive.filesAt location = some there) (hascending : Entry.Ascending there) :
    ∃ after files, origin.addFiles location archive (order.map (plan.entryAt location))
        = .ok after ∧ after.filesAt location = some files ∧ Entry.Ascending files ∧
      files.Perm (there ++ order.map (readBack origin plan location)) ∧
      ∀ other, other ≠ location → after.filesAt other = archive.filesAt other := by
  rw [Origin.addFiles]
  induction order generalizing archive there with
  | nil => exact ⟨archive, there, rfl, hthere, hascending, by simp, fun _ _ => rfl⟩
  | cons entry order ih =>
    set moved := readBack origin plan location entry with hmoved
    rw [List.map_cons, List.nodup_cons] at hnodup
    -- No other file there has the key, so the file comes to them and takes the place of none.
    have hput : (moved.put there).Perm (moved :: there) :=
      Entry.put_perm fun other hother => hfresh entry List.mem_cons_self other hother
    have hlook := filesAt_putFile archive location
    have hfresh' : ∀ other ∈ order, ∀ file ∈ moved.put there, file.key ≠ other.key := by
      intro other hother file hfile
      rcases List.mem_cons.mp (hput.mem_iff.mp hfile) with rfl | hfile
      · exact fun heq => hnodup.1 (heq ▸ List.mem_map_of_mem hother)
      · exact hfresh other (List.mem_cons_of_mem _ hother) file hfile
    have hthere' : (archive.putFile location moved).filesAt location = some (moved.put there) := by
      rw [hlook, if_pos rfl, hthere]
      rfl
    have hpolicy' : (archive.putFile location moved).policy.keepDuplicates = false := hpolicy
    obtain ⟨after, files, hrun, hfiles, hsorted, hperm, hothers⟩ :=
      ih hpolicy' (fun other hother => horder other (List.mem_cons_of_mem _ hother)) hnodup.2
        hfresh' hthere' (Entry.ascending_put moved hascending)
    refine ⟨after, files, ?_, hfiles, hsorted, ?_, fun other hne => ?_⟩
    · rw [List.map_cons, List.foldlM_cons,
        addFile_entryAt hpolicy hreads (horder entry List.mem_cons_self), Outcome.ok_bind]
      exact hrun
    · rw [List.map_cons]
      exact hperm.trans ((hput.append_right _).trans List.perm_middle.symm)
    · rw [hothers other hne, hlook, if_neg hne]

/-- The files of an index record are those of the directory that it was built for. -/
theorem addFiles_entriesAt (hpolicy : archive.policy.keepDuplicates = false)
    (hreads : ReadsFiles origin plan location directory)
    (hempty : archive.filesAt location = some []) :
    ∃ after, origin.addFiles location archive (plan.entriesAt location directory) = .ok after ∧
      ∀ other, after.filesAt other
        = if other = location then some (directory.files.map (readBack origin plan location))
          else archive.filesAt other := by
  have horder := plan.fileOrder_perm location directory
  have hkeys : (directory.files.map (·.key)).Nodup := by
    refine List.Pairwise.imp (fun hlt => ne_of_lt hlt) (List.pairwise_map.mpr ?_)
    exact hreads.sound.ascending
  obtain ⟨after, files, hrun, hfiles, hsorted, hperm, hothers⟩ :=
    addFiles_map_entryAt hpolicy hreads (fun entry hmem => horder.mem_iff.mp hmem)
      ((horder.map (·.key)).nodup_iff.mpr hkeys) (by simp) hempty List.Pairwise.nil
  refine ⟨after, (plan.entriesAt_eq location directory) ▸ hrun, ?_⟩
  intro other
  have hascending : Entry.Ascending (directory.files.map (readBack origin plan location)) :=
    List.pairwise_map.mpr hreads.sound.ascending
  -- The order of the steps is lost, since a directory keeps its files in the order of their keys.
  have hsame : files = directory.files.map (readBack origin plan location) := by
    apply Entry.eq_of_mem_iff hsorted hascending
    intro entry
    rw [hperm.mem_iff, List.nil_append, (horder.map _).mem_iff]
  split
  · next heq => rw [heq, hfiles, hsame]
  · next hne => exact hothers other hne

end Files

/-! ## Directories -/

/-- The reader finds the name of a directory, and what it needs of the files there. -/
structure ReadsPlace (origin : Origin) (plan : Index.Plan) (place : Place) : Prop where
  plain : Path.Plain place.name
  name : origin.names.resolve (Name.key plan.encoding place.name) = .ok place.name
  files : ReadsFiles origin plan place.location place.tree.label

/-- The reader finds what it needs of a directory and of all below it. -/
structure ReadsTree (origin : Origin) (plan : Index.Plan) (location : Location)
    (tree : Tree Directory) : Prop where
  ordered : tree.below.Ordered
  files : ReadsFiles origin plan location tree.label
  below : ∀ place ∈ tree.below.places location, ReadsPlace origin plan place

/-- What an archive holds at a location of a tree that has been read back. -/
def filesOf (origin : Origin) (plan : Index.Plan) (tree : Tree Directory)
    (location more : Location) : Option (List Entry) :=
  (tree.descend? more).map fun found =>
    found.label.files.map (readBack origin plan (location ++ more))

/-- From a location on down an archive holds what a tree does, read back, and elsewhere it is as
    it was before. -/
structure Filled (origin : Origin) (plan : Index.Plan) (location : Location)
    (tree : Tree Directory) (before after : Archive) : Prop where
  inside : ∀ more, after.filesAt (location ++ more) = filesOf origin plan tree location more
  outside : ∀ other, ¬ location <+: other → after.filesAt other = before.filesAt other

/-- The reader fills an empty location with the tree that a part of the index was built for. -/
def Reads (origin : Origin) (plan : Index.Plan) (tree : Tree Directory) : Prop :=
  ∀ (location : Location) (ancestors : List UInt64) (archive : Archive),
    ReadsTree origin plan location tree → archive.policy.keepDuplicates = false →
    archive.filesAt location = some [] →
    (∀ name more, archive.filesAt (location ++ name :: more) = none) →
    ∃ filled after,
      origin.addFiles location archive (plan.subtree location ancestors tree).label.files
        = .ok filled ∧
      origin.addDirectories (plan.subtree location ancestors tree) location filled
        (plan.subtree location ancestors tree).label.directories = .ok after ∧
      Filled origin plan location tree archive after

/-- The reader finds a directory among those that an index leads to, and can read it. -/
structure ReadsChild (origin : Origin) (plan : Index.Plan) (index : Index) (location : Location)
    (ancestors : List UInt64) (tree : Tree Directory) : Prop where
  found : index.child? (Name.key plan.encoding tree.label.name)
    = some (plan.subtree (location ++ [tree.label.name]) ancestors tree)
  place : ReadsPlace origin plan ⟨location ++ [tree.label.name], tree⟩
  below : ReadsTree origin plan (location ++ [tree.label.name]) tree
  reads : Reads origin plan tree

section Directories

variable {origin : Origin} {plan : Index.Plan} {index : Index} {location : Location}
  {ancestors : List UInt64} {archive : Archive}

theorem not_prefix_self (location : Location) (name : String) :
    ¬ location ++ [name] <+: location := by
  intro hpre
  have hlength := hpre.length_le
  rw [List.length_append, List.length_singleton] at hlength
  omega

theorem append_prefix_append_iff {name other : String} {more : Location} :
    location ++ [name] <+: location ++ other :: more ↔ name = other := by
  rw [List.prefix_append_right_inj, List.cons_prefix_cons]
  exact and_iff_left List.nil_prefix

/-- A directory is added where there was none, with all below it. -/
theorem exists_filled_of_readsChild {tree : Tree Directory} {entry : IndexEntry}
    (hchild : ReadsChild origin plan index location ancestors tree)
    (hkey : entry.key = Name.key plan.encoding tree.label.name)
    (hpolicy : archive.policy.keepDuplicates = false) (hlive : archive.Live location)
    (hmissing : ¬ archive.Live (location ++ [tree.label.name])) :
    ∃ deeper, Filled origin plan (location ++ [tree.label.name]) tree archive deeper ∧
      deeper.policy = archive.policy ∧
      ∀ entries after, origin.addDirectories index location deeper entries = .ok after →
        origin.addDirectories index location archive (entry :: entries) = .ok after := by
  set place := location ++ [tree.label.name] with hplace
  -- The step to the directory adds it with nothing in it.
  set entered := archive.addDirectory location tree.label.name with hentered
  have hfilesAt := filesAt_addDirectory hlive hmissing
  have hwalk : archive.enterAll location (Path.segments tree.label.name) = (entered, place) := by
    have hsegments := Path.segments_of_plain hchild.place.plain
    dsimp only [Place.name] at hsegments
    rw [hsegments]
    exact enter_name_of_not_live hmissing
  have hempty : entered.filesAt place = some [] := by rw [hfilesAt, if_pos rfl]
  have hbelow : ∀ name more, entered.filesAt (place ++ name :: more) = none := by
    intro name more
    have hne : place ++ name :: more ≠ place := by simp
    rw [hfilesAt, if_neg hne]
    exact filesAt_append_of_not_live hmissing _
  obtain ⟨filled, deeper, hfiles, hdeeper, hfilled⟩ :=
    hchild.reads place ancestors entered hchild.below hpolicy hempty hbelow
  have hplaceLive : entered.Live place := by
    rw [live_iff_filesAt, hempty]
    rfl
  have hgrows := grows_addEntries hplaceLive hfiles
  have hgrows' := grows_addDirectories (hgrows.live place hplaceLive) hdeeper
  refine ⟨deeper, ⟨hfilled.inside, fun other hnot => ?_⟩, ?_, fun entries after hrun => ?_⟩
  · rw [hfilled.outside other hnot, hfilesAt, if_neg]
    rintro rfl
    exact hnot (List.prefix_refl _)
  · exact hgrows'.policy_eq.trans hgrows.policy_eq
  · refine addDirectories_cons_eq_ok_iff.mpr ⟨tree.label.name,
      plan.subtree place ancestors tree, filled, deeper, ?_, ?_, ?_, ?_,
      hrun⟩
    · rw [hkey]
      exact hchild.place.name
    · rw [hkey]
      exact hchild.found
    · rw [hwalk]
      exact hfiles
    · rw [hwalk]
      exact hdeeper

/-- The directories of a list are added one after another, and each leaves the locations of the
    others alone. -/
theorem exists_filled_of_readsChildren {order : List (Tree Directory)}
    {entries : List IndexEntry}
    (hkeys : entries.map (·.key) = order.map fun tree => Name.key plan.encoding tree.label.name)
    (hnodup : (order.map (·.label.name)).Nodup)
    (hchildren : ∀ tree ∈ order, ReadsChild origin plan index location ancestors tree)
    (hpolicy : archive.policy.keepDuplicates = false) (hlive : archive.Live location)
    (hmissing : ∀ tree ∈ order, ¬ archive.Live (location ++ [tree.label.name])) :
    ∃ after, origin.addDirectories index location archive entries = .ok after ∧
      (∀ tree ∈ order, ∀ more, after.filesAt (location ++ [tree.label.name] ++ more)
        = filesOf origin plan tree (location ++ [tree.label.name]) more) ∧
      ∀ other, (∀ tree ∈ order, ¬ location ++ [tree.label.name] <+: other) →
        after.filesAt other = archive.filesAt other := by
  induction order generalizing entries archive with
  | nil =>
    obtain rfl := List.map_eq_nil_iff.mp hkeys
    refine ⟨archive, ?_, by simp, fun _ _ => rfl⟩
    rw [Origin.addDirectories]
  | cons tree order ih =>
    obtain ⟨entry, rest, rfl, hkey, hrest⟩ := List.map_eq_cons_iff.mp hkeys
    rw [List.map_cons, List.nodup_cons] at hnodup
    obtain ⟨deeper, hfilled, hsame, hstep⟩ := exists_filled_of_readsChild
      (hchildren tree List.mem_cons_self) hkey hpolicy hlive (hmissing tree List.mem_cons_self)
    -- Siblings have different names, so filling one leaves the locations of the others alone.
    have hapart : ∀ other ∈ order, other.label.name ≠ tree.label.name := fun other hmem heq =>
      hnodup.1 (heq ▸ List.mem_map_of_mem hmem)
    have hlive' : deeper.Live location := by
      rw [live_iff_filesAt, hfilled.outside location (not_prefix_self _ _), ← live_iff_filesAt]
      exact hlive
    have hmissing' : ∀ other ∈ order, ¬ deeper.Live (location ++ [other.label.name]) := by
      intro other hmem
      rw [live_iff_filesAt, hfilled.outside _ fun hpre =>
        hapart other hmem (append_prefix_append_iff.mp hpre).symm, ← live_iff_filesAt]
      exact hmissing other (List.mem_cons_of_mem _ hmem)
    obtain ⟨after, hrun, hinside, houtside⟩ := ih hrest hnodup.2
      (fun other hmem => hchildren other (List.mem_cons_of_mem _ hmem))
      (hsame ▸ hpolicy) hlive' hmissing'
    refine ⟨after, hstep rest after hrun, fun found hmem more => ?_, fun other hnone => ?_⟩
    · rcases List.mem_cons.mp hmem with rfl | hmem
      · rw [houtside, hfilled.inside]
        intro other hother hpre
        rw [List.append_assoc, List.singleton_append] at hpre
        exact hapart other hother (append_prefix_append_iff.mp hpre)
      · exact hinside found hmem more
    · rw [houtside other fun tree hmem => hnone tree (List.mem_cons_of_mem _ hmem)]
      exact hfilled.outside other (hnone tree List.mem_cons_self)

/-! ## Whole trees -/

theorem ReadsTree.of_mem_trees {tree child : Tree Directory}
    (h : ReadsTree origin plan location tree) (hmem : child ∈ tree.below.trees) :
    ReadsTree origin plan (location ++ [child.label.name]) child where
  ordered := h.ordered.below_of_mem_trees hmem
  files := (h.below _ (Forest.mem_places_of_mem_trees hmem location)).files
  below := fun place hplace => h.below place (Forest.mem_places_of_mem_places_below hmem hplace)

/-- The index leads to each subdirectory, since names with one key are one name. -/
theorem child?_subtree {tree child : Tree Directory} (hreads : ReadsTree origin plan location tree)
    (hmem : child ∈ tree.below.trees) :
    (plan.subtree location ancestors tree).child? (Name.key plan.encoding child.label.name)
      = some (plan.subtree (location ++ [child.label.name])
          (Name.key plan.encoding tree.label.name :: ancestors) child) := by
  set above := Name.key plan.encoding tree.label.name :: ancestors with habove
  have hresolves : ∀ other ∈ tree.below.trees,
      origin.names.resolve (Name.key plan.encoding other.label.name) = .ok other.label.name :=
    fun other hother => (hreads.below _ (Forest.mem_places_of_mem_trees hother location)).name
  have horder := plan.byKey_perm tree.below
  have hsome : ((plan.byKey tree.below).find? fun other =>
      Name.key plan.encoding other.label.name == Name.key plan.encoding child.label.name).isSome :=
    List.find?_isSome.mpr ⟨child, horder.mem_iff.mpr hmem, by simp⟩
  obtain ⟨found, hfound⟩ := Option.isSome_iff_exists.mp hsome
  have hfoundMem := horder.mem_iff.mp (List.mem_of_find?_eq_some hfound)
  have hkey : Name.key plan.encoding found.label.name = Name.key plan.encoding child.label.name :=
    by simpa using List.find?_some hfound
  -- Both names are what one key leads back to.
  have hname : found.label.name = child.label.name := by
    have hresolve := hresolves found hfoundMem
    rw [hkey, hresolves child hmem] at hresolve
    exact (Except.ok.inj hresolve).symm
  have hsame : some found = some child := by
    rw [← Forest.child?_of_mem_trees hreads.ordered.nodup_names hfoundMem, hname,
      Forest.child?_of_mem_trees hreads.ordered.nodup_names hmem]
  obtain rfl := Option.some.inj hsame
  show (plan.forest location above tree.below).trees.find? _ = _
  rw [plan.trees_forest_eq, List.find?_map]
  exact congrArg (Option.map _) hfound

/-- An empty location is filled with a tree when the files of its root are there, and then its
    subdirectories. -/
theorem filled_of_children {tree : Tree Directory} {before filled after : Archive}
    (hnone : ∀ name more, before.filesAt (location ++ name :: more) = none)
    (hfilled : ∀ other, filled.filesAt other
      = if other = location then some (tree.label.files.map (readBack origin plan location))
        else before.filesAt other)
    (hinside : ∀ child ∈ tree.below.trees, ∀ more,
      after.filesAt (location ++ [child.label.name] ++ more)
        = filesOf origin plan child (location ++ [child.label.name]) more)
    (houtside : ∀ other, (∀ child ∈ tree.below.trees, ¬ location ++ [child.label.name] <+: other) →
      after.filesAt other = filled.filesAt other) :
    Filled origin plan location tree before after := by
  constructor
  · intro more
    cases more with
    | nil =>
      rw [List.append_nil, houtside location fun _ _ => not_prefix_self _ _, hfilled, if_pos rfl]
      simp [filesOf]
    | cons name more =>
      rw [filesOf, Tree.descend?_cons]
      cases hfound : tree.below.child? name with
      | some child =>
        have hinside := hinside child (Forest.mem_trees_of_child? hfound) more
        rw [Forest.name_of_child? hfound] at hinside
        rw [List.append_assoc, List.singleton_append] at hinside
        rw [hinside, filesOf, List.append_assoc]
        rfl
      | none =>
        rw [houtside, hfilled, if_neg (by simp), hnone]
        · rfl
        · intro child hmem hpre
          have hname := append_prefix_append_iff.mp hpre
          refine Forest.child?_eq_none_iff.mp hfound (hname ▸ ?_)
          exact List.mem_map_of_mem hmem
  · intro other hnot
    rw [houtside other fun child _ hpre => hnot ((List.prefix_append _ _).trans hpre), hfilled,
      if_neg]
    rintro rfl
    exact hnot (List.prefix_refl _)

/-- A tree is read once all its subdirectories can be. -/
theorem reads_of_reads_below {tree : Tree Directory}
    (hbelow : ∀ child ∈ tree.below.trees, Reads origin plan child) : Reads origin plan tree := by
  intro location ancestors archive hreads hpolicy hempty hnone
  have hlive : archive.Live location := by
    rw [live_iff_filesAt, hempty]
    rfl
  obtain ⟨filled, hfiles, hfilled⟩ := addFiles_entriesAt hpolicy hreads.files hempty
  have hgrows := grows_addEntries hlive hfiles
  have hpolicy' : filled.policy.keepDuplicates = false := hgrows.policy_eq ▸ hpolicy
  have horder := plan.byKey_perm tree.below
  have hkeys := plan.map_key_directories_subtree location ancestors tree
  -- The files of the directory are there by now, and no subdirectory is.
  have hmissing : ∀ child ∈ plan.byKey tree.below,
      ¬ filled.Live (location ++ [child.label.name]) := by
    intro child _
    rw [live_iff_filesAt, hfilled, if_neg (by simp), hnone]
    exact Bool.false_ne_true
  obtain ⟨after, hrun, hinside, houtside⟩ := exists_filled_of_readsChildren hkeys
    ((horder.map _).nodup_iff.mpr hreads.ordered.nodup_names)
    (fun child hmem => ⟨child?_subtree hreads (horder.mem_iff.mp hmem),
      hreads.below _ (Forest.mem_places_of_mem_trees (horder.mem_iff.mp hmem) location),
      hreads.of_mem_trees (horder.mem_iff.mp hmem), hbelow child (horder.mem_iff.mp hmem)⟩)
    hpolicy' (hgrows.live location hlive) hmissing
  refine ⟨filled, after, hfiles, hrun, filled_of_children hnone hfilled ?_ ?_⟩
  · exact fun child hmem => hinside child (horder.mem_iff.mpr hmem)
  · intro other hnot
    exact houtside other fun child hmem => hnot child (horder.mem_iff.mp hmem)

/-- Of an index that was built for an archive the reader makes a mirror of that archive. -/
theorem exists_mirror {archive : Archive} (hreads : ReadsTree origin plan [] archive.root)
    (name : String) :
    ∃ filled mirror,
      origin.addFiles [] (new name) (plan.index archive.root).label.files = .ok filled ∧
      origin.addDirectories (plan.index archive.root) [] filled
        (plan.index archive.root).label.directories = .ok mirror ∧
      mirror.name = name ∧ archive.Mirrors (readBack origin plan) mirror := by
  have hroot : Reads origin plan archive.root :=
    Tree.induct_below (fun _ => reads_of_reads_below) archive.root
  obtain ⟨filled, mirror, hfiles, hrun, hfilled⟩ :=
    hroot [] [] (new name) hreads rfl rfl fun _ _ => rfl
  have hgrows := grows_addEntries (live_nil _) hfiles
  have hgrows' := grows_addDirectories (live_nil _) hrun
  refine ⟨filled, mirror, hfiles, hrun, hgrows'.name_eq.trans hgrows.name_eq, ?_⟩
  intro location
  have hinside := hfilled.inside location
  rw [filesAt, filesOf, List.nil_append] at hinside
  rw [hinside, directory?, Tree.directory?, Option.map_map]
  rfl

end Directories

end Archive

end HashArchive
