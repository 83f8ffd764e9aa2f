/-
  HashArchive.Proofs.Arena.Merging

  Merges of arenas that represent archives.  The stack holds the subdirectories that are still to
  be merged, each beside the directory of the same location that it is laid over (`Beside`); what
  the loop does with those of one forest is what the recursion over the tree does with it, and
  then it goes on with the rest of the stack (`follows_loop`).
-/
import Mathlib
import HashArchive.Arena.Merge
import HashArchive.Proofs.Archive.Overlay
import HashArchive.Proofs.Arena.Adding

namespace HashArchive

theorem Archive.Merging.andThen_assoc (run : Archive.Merging)
    (next more : Archive → Archive.Merging) :
    (run.andThen next).andThen more = run.andThen fun archive => (next archive).andThen more := by
  obtain ⟨archive, stop⟩ := run
  cases stop with
  | some error => rfl
  | none => rfl

theorem Archive.Merging.andThen_of_none {run : Archive.Merging} (next : Archive → Archive.Merging)
    (h : run.2 = none) : run.andThen next = next run.1 := by
  obtain ⟨archive, stop⟩ := run
  obtain rfl : stop = none := h
  rfl

theorem Archive.Merging.andThen_of_some {run : Archive.Merging} (next : Archive → Archive.Merging)
    {error : ArchiveError} (h : run.2 = some error) : run.andThen next = run := by
  obtain ⟨archive, stop⟩ := run
  obtain rfl : stop = some error := h
  rfl

theorem Archive.Merging.andThen_done (run : Archive.Merging) :
    (run.andThen fun archive => (archive, none)) = run := by
  obtain ⟨archive, stop⟩ := run
  cases stop with
  | some error => rfl
  | none => rfl

/-- The next number does not fall where the next part does not lower it. -/
theorem Archive.Merging.nextId_le_andThen {run : Archive.Merging}
    {next : Archive → Archive.Merging} (h : run.2 = none → run.1.nextId ≤ (next run.1).1.nextId) :
    run.1.nextId ≤ (run.andThen next).1.nextId := by
  cases hstop : run.2 with
  | none =>
    rw [Archive.Merging.andThen_of_none next hstop]
    exact h hstop
  | some error => rw [Archive.Merging.andThen_of_some next hstop]

theorem Archive.mergeSubdirectories_cons (location : Location) (directory : Directory)
    (inner rest : Forest Directory) (archive : Archive) :
    Archive.mergeSubdirectories location (.cons directory inner rest) archive
      = ((Archive.mergeSubdirectories location rest archive).enter location
          (.name directory.name)).1 := by
  rw [Archive.mergeSubdirectories, Forest.trees, List.reverse_cons, List.foldl_append]
  rfl

theorem Archive.mergeFiles_cons (mode : Archive.MergeMode) (location : Location) (entry : Entry)
    (entries : List Entry) (archive : Archive) :
    Archive.mergeFiles mode location (entry :: entries) archive
      = (Archive.mergeFiles mode location [entry] archive).andThen
          (Archive.mergeFiles mode location entries) := by
  simp only [Archive.mergeFiles]
  split
  · rfl
  · rfl

namespace Arena

open Archive

variable {ι : Type} [Handle ι] {α β : Type}

/-! ## Parts of a merge -/

/-- A change of an arena ends as a part of a merge of archives does, unless the counter runs out
    of numbers below a bound. -/
def Follows (next : ι → Option ι) (bound : Nat) (steps : Run ι α) (arena : Arena ι) (run : Merging)
    (post : α → Prop) : Prop :=
  Ends steps arena (Handle.RunsOut next bound)
    (fun a after => run.2 = none ∧ after.Represents run.1 ∧ post a)
    fun error after => run.2 = some error ∧ after.Represents run.1

section Follows

variable {next : ι → Option ι} {bound : Nat} {steps : Run ι α} {more : α → Run ι β}
  {arena : Arena ι} {run : Merging} {post : α → Prop} {post' : β → Prop}

theorem Follows.pure {archive : Archive} {a : α} (h : arena.Represents archive) (ha : post a) :
    Follows next bound (pure a) arena (archive, none) post :=
  Ends.pure ⟨rfl, h, ha⟩

/-- Two parts, one after the other, are one part. -/
theorem Follows.bind (h : Follows next bound steps arena run post) (cont : Archive → Merging)
    (hmore : run.2 = none → ∀ a after, after.Represents run.1 → post a →
      Follows next bound (more a) after (cont run.1) post') :
    Follows next bound (steps >>= more) arena (run.andThen cont) post' := by
  refine Ends.bind h (fun hout => hout) (fun error after hfail => ?_) fun a after hpost => ?_
  · rw [Merging.andThen_of_some cont hfail.1]
    exact hfail
  · rw [Merging.andThen_of_none cont hpost.1]
    exact hmore hpost.1 a after hpost.2.1 hpost.2.2

end Follows

/-! ## One directory -/

section Directory

variable {next : ι → Option ι} {bound : Nat} {merge : Merge ι} {source archive : Archive}
  {arena : Arena ι} {location : Location} {id : ι}

/-- How the tree merges what an arena does. -/
def Merge.mode (merge : Merge ι) (source : Archive) : MergeMode where
  streams := merge.streams
  keepDuplicates := merge.keepDuplicates
  sourceName := source.name

/-- A subdirectory of the source stands beside the directory that it is laid over. -/
def Beside (source archive : Archive) (above : Location) (pair : ι × ι) (tree : Tree Directory) :
    Prop :=
  source.idAt (above ++ [tree.label.name]) = some (Handle.toNat pair.1) ∧
    archive.idAt (above ++ [tree.label.name]) = some (Handle.toNat pair.2)

/-- Directories that are there stay where they are. -/
theorem Beside.mono {after : Archive} {above : Location} {pairs : List (ι × ι)}
    {trees : List (Tree Directory)} (h : List.Forall₂ (Beside source archive above) pairs trees)
    (hextends : Extends archive after) : List.Forall₂ (Beside source after above) pairs trees := by
  refine h.imp fun pair tree hpair => ⟨hpair.1, ?_⟩
  rw [hextends.ids _ (live_of_idAt hpair.2)]
  exact hpair.2

theorem Beside.live {above : Location} {pairs : List (ι × ι)} {forest : Forest Directory}
    (h : List.Forall₂ (Beside source archive above) pairs forest.trees) :
    ∀ name ∈ forest.names, archive.Live (above ++ [name]) := by
  unfold Forest.names
  generalize forest.trees = trees at h
  induction h with
  | nil => simp
  | cons hpair _ ih => exact List.forall_mem_cons.mpr ⟨live_of_idAt hpair.2, ih⟩

section Files

variable (hsource : merge.source.Represents source)
include hsource

theorem Merge.key_eq {file : File ι}
    (hid : source.idAt location = some (Handle.toNat file.directory)) :
    merge.key file = pure ((merge.mode source).key location file.name) := by
  rw [Merge.key, MergeMode.key]
  show _ = pure (if merge.keepDuplicates then _ else _)
  split
  · exact fullPath_eq hsource hid
  · rfl

/-- A file is added as in the tree. -/
theorem follows_addFile {file : File ι}
    (hfile : source.idAt location = some (Handle.toNat file.directory))
    (hsound : file.toEntry.Sound) (h : arena.Represents archive)
    (hid : archive.idAt location = some (Handle.toNat id)) :
    Follows next bound (merge.addFile id file) arena
      (mergeFiles (merge.mode source) location [file.toEntry] archive) fun _ => True := by
  have hentries : ∀ entry ∈ [file.toEntry], entry.Sound := by
    rintro entry hmem
    rw [List.mem_singleton.mp hmem]
    exact hsound
  have hgrows := grows_mergeFiles (merge.mode source) (live_of_idAt hid) hentries
  have hformed := hgrows.evolves.wellFormed h.wellFormed
  refine Ends.of_run_eq (run_ask_bind (Merge.key_eq hsource hfile)) ?_
  rw [mergeFiles] at hformed ⊢
  show Follows next bound _ arena _ _
  cases hcontent : file.source.detached merge.streams with
  | error error =>
    rw [show file.toEntry.source.detached (merge.mode source).streams = .error error from hcontent]
    exact .fault error arena rfl ⟨rfl, h⟩
  | ok content =>
    rw [show file.toEntry.source.detached (merge.mode source).streams = .ok content from hcontent]
      at hformed ⊢
    obtain ⟨node, hnode, -⟩ := h.exists_node hid
    refine .answer () _ (run_bind_of_ok (run_insertFile hnode _ _ _)) ⟨rfl, ?_, trivial⟩
    exact h.putFile hid hnode rfl hformed

theorem follows_addFiles {files : List (File ι)}
    (hfiles : ∀ file ∈ files, source.idAt location = some (Handle.toNat file.directory))
    (hsound : ∀ file ∈ files, file.toEntry.Sound) (h : arena.Represents archive)
    (hid : archive.idAt location = some (Handle.toNat id)) :
    Follows next bound (files.forM (merge.addFile id)) arena
      (mergeFiles (merge.mode source) location (files.map File.toEntry) archive)
      fun _ => True := by
  induction files generalizing arena archive with
  | nil => exact .pure h trivial
  | cons file files ih =>
    obtain ⟨hfile, hfiles⟩ := List.forall_mem_cons.mp hfiles
    obtain ⟨hentry, hsound⟩ := List.forall_mem_cons.mp hsound
    have hlive := live_of_idAt hid
    have hkeeps : Extends archive
        (mergeFiles (merge.mode source) location [file.toEntry] archive).1 :=
      (merges_mergeFiles (merge.mode source) ⟨location, source.root⟩ [file.toEntry] hlive).keeps
    rw [List.map_cons, mergeFiles_cons]
    show Follows next bound (merge.addFile id file >>= fun _ => files.forM (merge.addFile id))
      arena _ _
    refine (follows_addFile hsource hfile hentry h hid).bind _ fun _ _ after hafter _ => ?_
    refine ih hfiles hsound hafter ?_
    rw [hkeeps.ids location hlive]
    exact hid

/-- The files that a directory of the source lists are added as in the tree. -/
theorem follows_listing (next : ι → Option ι) (bound : Nat) {place : Place} {own : ι}
    (hmem : place ∈ source.places)
    (hplace : source.idAt place.location = some (Handle.toNat own)) (h : arena.Represents archive)
    (hid : archive.idAt place.location = some (Handle.toNat id)) :
    ∃ files, merge.source.sortedFiles own = pure files ∧
      Follows next bound (files.forM (merge.addFile id)) arena
        (mergeFiles (merge.mode source) place.location place.tree.label.listing archive)
        fun _ => True := by
  obtain ⟨files, hfiles, hentries, hdirectory⟩ :=
    sortedFiles_eq hsource (place?_of_idAt hsource.wellFormed hmem hplace)
  have hsound := hsource.wellFormed.sound _ (label_mem_of_mem_places hmem)
  refine ⟨files, hfiles, ?_⟩
  rw [← hentries]
  refine follows_addFiles hsource (fun file hfile => ?_) (fun file hfile => ?_) h hid
  · rw [hdirectory file hfile]
    exact hplace
  · have hlisted := List.mem_map_of_mem (f := File.toEntry) hfile
    rw [hentries] at hlisted
    exact hsound.entries _ ((Sorted.perm_sort _ _).mem_iff.mp hlisted)

/-- A subdirectory of the source is entered as in the tree. -/
theorem follows_enter (hnext : Handle.Lawful next) {child : ι} {name : String}
    (hchild : source.idAt (location ++ [name]) = some (Handle.toNat child))
    (hplain : Path.Plain name) (h : arena.Represents archive)
    (hid : archive.idAt location = some (Handle.toNat id))
    (hbound : (archive.enter location (.name name)).1.nextId ≤ bound) (pending : List (ι × ι)) :
    Follows next bound (merge.enter next id pending child) arena
      ((archive.enter location (.name name)).1, none)
      fun stack => ∃ below, stack = (child, below) :: pending ∧
        (archive.enter location (.name name)).1.idAt (location ++ [name])
          = some (Handle.toNat below) := by
  obtain ⟨node, parent, hnode, rfl, -, -⟩ := hsource.exists_parent hchild
  have hsegments : ∀ name, .name name ∈ [Segment.name node.name] → Path.Plain name := by
    intro name hmem
    obtain rfl : name = node.name := Segment.name.inj (List.mem_singleton.mp hmem)
    exact hplain
  have hends := ends_enterAll hnext h hid hsegments
  refine Ends.of_run_eq (run_ask_bind (node_of_getElem? hnode)) ?_
  refine Ends.bind hends (·.mono hbound) (fun _ _ => False.elim) fun below after hafter => ?_
  obtain ⟨hafter, hbelow⟩ := hafter
  have hlast : (archive.enterAll location [.name node.name]).2 = location ++ [node.name] :=
    enter_name_snd archive location node.name
  rw [hlast] at hbelow
  exact .pure ⟨rfl, hafter, below, rfl, hbelow⟩

/-- The subdirectories are entered as in the tree, the last one first, so that the stack has them
    in order. -/
theorem follows_enterSubdirectories (hnext : Handle.Lawful next) {ids : List ι}
    {below : Forest Directory}
    (hids : List.Forall₂ (fun id tree =>
      source.idAt (location ++ [tree.label.name]) = some (Handle.toNat id)) ids below.trees)
    (hplain : ∀ name ∈ below.names, Path.Plain name) (h : arena.Represents archive)
    (hid : archive.idAt location = some (Handle.toNat id))
    (hbound : (mergeSubdirectories location below archive).nextId ≤ bound)
    (pending : List (ι × ι)) :
    Follows next bound (ids.reverse.foldlM (merge.enter next id) pending) arena
      (mergeSubdirectories location below archive, none)
      fun stack => ∃ pairs, stack = pairs ++ pending ∧
        List.Forall₂ (Beside source (mergeSubdirectories location below archive) location)
          pairs below.trees := by
  induction below generalizing ids with
  | nil =>
    obtain rfl := List.forall₂_nil_right_iff.mp hids
    exact .pure h ⟨[], rfl, .nil⟩
  | cons directory inner rest _ ihRest =>
    obtain ⟨child, others, hchild, hothers, rfl⟩ := List.forall₂_cons_right_iff.mp hids
    have hname : Path.Plain directory.name := hplain _ List.mem_cons_self
    have hrest : ∀ name ∈ rest.names, Path.Plain name :=
      fun name hmem => hplain name (List.mem_cons_of_mem _ hmem)
    have hlive := live_of_idAt hid
    have hkeeps : Extends archive (mergeSubdirectories location rest archive) :=
      (merges_mergeSubdirectories (merge.mode source) hlive rest).keeps
    have hthere : (mergeSubdirectories location rest archive).idAt location
        = some (Handle.toNat id) := by
      rw [hkeeps.ids location hlive]
      exact hid
    have hle : (mergeSubdirectories location rest archive).nextId
        ≤ ((mergeSubdirectories location rest archive).enter location
            (.name directory.name)).1.nextId := by
      have hformed := (grows_mergeSubdirectories hlive hrest).1.evolves.wellFormed h.wellFormed
      refine (grows_enter (.name directory.name) (live_of_idAt hthere) ?_).1.nextId_le hformed
      rintro name ⟨⟩
      exact hname
    -- The first subdirectory is entered last, after all that the induction is about.
    rw [mergeSubdirectories_cons] at hbound ⊢
    rw [List.reverse_cons, List.foldlM_append]
    refine (ihRest hothers hrest (hle.trans hbound)).bind
      (fun archive => ((archive.enter location (.name directory.name)).1, none)) ?_
    rintro - stack after hafter ⟨pairs, rfl, hpairs⟩
    have hstep := follows_enter hsource hnext hchild hname hafter hthere hbound (pairs ++ pending)
    rw [List.foldlM_cons]
    simp only [List.foldlM_nil, bind_pure]
    refine Ends.mono hstep (fun hout => hout) ?_ fun _ _ hfail => hfail
    rintro stack final ⟨hnone, hfinal, below, rfl, hbelow⟩
    refine ⟨hnone, hfinal, (child, below) :: pairs, rfl, .cons ⟨hchild, hbelow⟩ ?_⟩
    exact Beside.mono hpairs (extends_enter (live_of_idAt hthere) _)

end Files

end Directory

/-! ## The loop -/

theorem forall₂_idAt_of_map_eq {source : Archive} (h : source.WellFormed) {above : Location}
    {ids : List ι} {trees : List (Tree Directory)}
    (hids : ids.map Handle.toNat = trees.map (·.label.id))
    (hmem : ∀ tree ∈ trees, (⟨above ++ [tree.label.name], tree⟩ : Place) ∈ source.places) :
    List.Forall₂ (fun id tree =>
      source.idAt (above ++ [tree.label.name]) = some (Handle.toNat id)) ids trees := by
  induction trees generalizing ids with
  | nil =>
    obtain rfl := List.map_eq_nil_iff.mp hids
    exact .nil
  | cons tree trees ih =>
    obtain ⟨id, ids, rfl, hid, hids⟩ := List.map_eq_cons_iff.mp hids
    obtain ⟨hplace, hmem⟩ := List.forall_mem_cons.mp hmem
    refine .cons ?_ (ih hids hmem)
    rw [hid]
    exact idAt_of_mem_places h hplace

section Loop

variable {next : ι → Option ι} {bound : Nat} {merge : Merge ι} {source archive : Archive}
  {arena : Arena ι} (hnext : Handle.Lawful next) (hsource : merge.source.Represents source)
include hnext hsource

/-- The loop merges the directory on top of the stack, and goes on with its subdirectories on
    the stack. -/
theorem follows_visit {place : Place} {id target : ι}
    (hmem : place ∈ source.places)
    (hplace : source.idAt place.location = some (Handle.toNat id))
    (hbelow : ∀ tree ∈ place.tree.below.trees,
      (⟨place.location ++ [tree.label.name], tree⟩ : Place) ∈ source.places)
    (hplain : ∀ name ∈ place.tree.below.names, Path.Plain name) (h : arena.Represents archive)
    (hid : archive.idAt place.location = some (Handle.toNat target)) {pending : List (ι × ι)}
    {cont : Archive → Merging} {merged : Merging}
    (hmerged : mergeDirectory (merge.mode source) place.location place.tree archive = merged)
    (hbound : merged.1.nextId ≤ bound)
    (hcont : merged.2 = none → ∀ pairs after, after.Represents merged.1 →
      List.Forall₂ (Beside source merged.1 place.location) pairs place.tree.below.trees →
      Follows next bound (merge.loop next (pairs ++ pending)) after (cont merged.1) fun _ => True) :
    Follows next bound (merge.loop next ((id, target) :: pending)) arena (merged.andThen cont)
      fun _ => True := by
  have hlive := live_of_idAt hid
  have hfound := place?_of_idAt hsource.wellFormed hmem hplace
  obtain ⟨files, hfiles, hadded⟩ := follows_listing hsource next bound hmem hplace h hid
  obtain ⟨ids, hids, hnumbers⟩ := sortedSubdirectories_eq hsource hfound
  have hchildren := forall₂_idAt_of_map_eq hsource.wellFormed hnumbers hbelow
  -- A directory is merged with its files first, and then its subdirectories are entered.
  set copied := mergeFiles (merge.mode source) place.location place.tree.label.listing archive
  have hparts : merged = copied.andThen fun archive =>
      (mergeSubdirectories place.location place.tree.below archive, none) := hmerged.symm
  have hthere : copied.1.idAt place.location = some (Handle.toNat target) := by
    rw [(merges_mergeFiles (merge.mode source) place _ hlive).keeps.ids _ hlive]
    exact hid
  rw [Merge.loop, hparts, Merging.andThen_assoc]
  refine Ends.of_run_eq (run_ask_bind hfiles) ?_
  refine hadded.bind _ fun hnone _ after hafter _ => ?_
  rw [hparts, Merging.andThen_of_none _ hnone] at hbound hcont
  refine Ends.of_run_eq (run_ask_bind hids) ?_
  have hbelow := follows_enterSubdirectories hsource hnext hchildren hplain hafter hthere hbound
    pending
  refine hbelow.bind cont ?_
  rintro - stack final hfinal ⟨pairs, rfl, hpairs⟩
  exact hcont rfl pairs final hfinal hpairs

/-- The loop merges the directories of a forest on top of the stack as the recursion does, and
    goes on with what is below them on the stack. -/
theorem follows_loop {forest : Forest Directory} {above : Location} {pairs pending : List (ι × ι)}
    (hmem : ∀ place ∈ forest.places above, place ∈ source.places)
    (hforest : Mergeable forest.labels)
    (hpairs : List.Forall₂ (Beside source archive above) pairs forest.trees)
    (h : arena.Represents archive) {cont : Archive → Merging} {merged : Merging}
    (hmerged : mergeForest (merge.mode source) forest above archive = merged)
    (hbound : merged.1.nextId ≤ bound)
    (hcont : merged.2 = none → ∀ after, after.Represents merged.1 →
      Follows next bound (merge.loop next pending) after (cont merged.1) fun _ => True) :
    Follows next bound (merge.loop next (pairs ++ pending)) arena (merged.andThen cont)
      fun _ => True := by
  induction forest generalizing above pairs pending arena archive cont merged with
  | nil =>
    obtain rfl := List.forall₂_nil_right_iff.mp hpairs
    obtain rfl := hmerged
    exact hcont rfl arena h
  | cons directory inner rest ihInner ihRest =>
    obtain ⟨⟨id, target⟩, others, hpair, hothers, rfl⟩ := List.forall₂_cons_right_iff.mp hpairs
    set location := above ++ [directory.name] with hlocation
    have hhead : (⟨location, ⟨directory, inner⟩⟩ : Place) ∈ source.places :=
      hmem _ List.mem_cons_self
    have hinside : ∀ place ∈ inner.places location, place ∈ source.places := fun place hplace =>
      hmem place (List.mem_cons_of_mem _ (List.mem_append_left _ hplace))
    have hbeside : ∀ place ∈ rest.places above, place ∈ source.places := fun place hplace =>
      hmem place (List.mem_cons_of_mem _ (List.mem_append_right _ hplace))
    have hinner : Mergeable inner.labels := fun other hmem =>
      hforest other (by simp [Forest.labels, hmem])
    have hrest : Mergeable rest.labels := fun other hmem =>
      hforest other (by simp [Forest.labels, hmem])
    have hdirectory := hforest directory (by simp [Forest.labels])
    set visited := mergeDirectory (merge.mode source) location ⟨directory, inner⟩ archive
    have hparts : merged = visited.andThen fun archive =>
        (mergeForest (merge.mode source) inner location archive).andThen
          (mergeForest (merge.mode source) rest above) := hmerged.symm
    have hlive : archive.Live location := live_of_idAt hpair.2
    obtain ⟨hgrows, hchildren⟩ := grows_mergeDirectory (merge.mode source) ⟨directory, inner⟩ hlive
      hdirectory.2 fun name hmem => hinner.plain_of_mem_names hmem
    have hkeeps : Extends archive visited.1 :=
      (merges_mergeDirectory (merge.mode source) ⟨directory, inner⟩ hlive).keeps
    have hformed := hgrows.evolves.wellFormed h.wellFormed
    -- Each part leaves the next number where it is or raises it.
    have hmore : visited.2 = none → visited.1.nextId
          ≤ (mergeForest (merge.mode source) inner location visited.1).1.nextId ∧
        (mergeForest (merge.mode source) inner location visited.1).1.nextId
          ≤ ((mergeForest (merge.mode source) inner location visited.1).andThen
              (mergeForest (merge.mode source) rest above)).1.nextId := by
      intro hnone
      have hinsideGrows := grows_mergeForest (merge.mode source) (hchildren hnone) hinner
      refine ⟨hinsideGrows.nextId_le hformed, Merging.nextId_le_andThen fun _ => ?_⟩
      refine (grows_mergeForest _ (fun name hname => ?_) hrest).nextId_le
        (hinsideGrows.evolves.wellFormed hformed)
      exact hinsideGrows.live _ (hkeeps.live (Beside.live hothers name hname))
    rw [hparts] at hbound hcont ⊢
    rw [Merging.andThen_assoc]
    simp only [Merging.andThen_assoc]
    -- The directory, what is below it and its siblings follow each other on the stack.
    refine follows_visit hnext hsource hhead hpair.1
      (fun tree htree => hinside _ (Forest.mem_places_of_mem_trees htree location))
      (fun name hname => hinner.plain_of_mem_names hname) h hpair.2 rfl ?_ ?_
    · refine (Merging.nextId_le_andThen fun hnone => ?_).trans hbound
      exact (hmore hnone).1.trans (hmore hnone).2
    · intro hnone pairs after hafter hpairs
      rw [Merging.andThen_of_none _ hnone] at hbound hcont
      have hinsideKeeps : Extends visited.1
          (mergeForest (merge.mode source) inner location visited.1).1 :=
        (merges_mergeForest (merge.mode source) fun tree htree =>
          hchildren hnone _ (List.mem_map_of_mem htree)).keeps
      refine ihInner hinside hinner hpairs hafter rfl ((hmore hnone).2.trans hbound) ?_
      intro hnone' final hfinal
      rw [Merging.andThen_of_none _ hnone'] at hbound hcont
      exact ihRest hbeside hrest (Beside.mono hothers (hkeeps.trans hinsideKeeps)) hfinal rfl
        hbound hcont

end Loop

/-- A merge of arenas ends as the merge of the archives that they represent: with the arena that
    represents what is left, with the error that stopped it, or with a trap if there are not
    enough numbers for the new directories. -/
theorem ends_mergeFrom {next : ι → Option ι} {arena target : Arena ι} {archive source : Archive}
    (hnext : Handle.Lawful next) (h : target.Represents archive)
    (hsource : arena.Represents source) (streams : Streams) (keepDuplicates : Bool) :
    Ends (mergeFrom next arena streams keepDuplicates) target
      (Handle.RunsOut next (archive.merge source streams keepDuplicates).1.nextId)
      (fun _ after => (archive.merge source streams keepDuplicates).2 = none ∧
        after.Represents (archive.merge source streams keepDuplicates).1)
      fun error after => (archive.merge source streams keepDuplicates).2 = some error ∧
        after.Represents (archive.merge source streams keepDuplicates).1 := by
  set merge : Merge ι := { source := arena, streams, keepDuplicates }
  set settings : Policy := { archive.policy with keepDuplicates } with hsettings
  set start : Archive := { archive with policy := settings }
  have hstart : ({ target with policy := settings } : Arena ι).Represents start :=
    h.setPolicy settings
  set visited := mergeDirectory (merge.mode source) [] source.root start with hvisited
  have hparts : archive.merge source streams keepDuplicates
      = visited.andThen (mergeForest (merge.mode source) source.root.below []) := rfl
  have hbelow := mergeable_below hsource.wellFormed
  obtain ⟨hgrows, hchildren⟩ := grows_mergeDirectory (merge.mode source) source.root
    (live_nil start) (hsource.wellFormed.sound source.root.label List.mem_cons_self)
    fun name hmem => hbelow.plain_of_mem_names hmem
  have hplaces : ∀ place ∈ source.root.below.places [], place ∈ source.places :=
    fun place hmem => List.mem_cons_of_mem _ hmem
  have hroot : (⟨[], source.root⟩ : Place) ∈ source.places := List.mem_cons_self
  rw [hparts]
  set whole := visited.andThen (mergeForest (merge.mode source) source.root.below []) with hwhole
  have hloop : Follows next whole.1.nextId (merge.loop next [(Handle.root, Handle.root)])
      { target with policy := settings } whole fun _ => True := by
    refine follows_visit hnext hsource hroot hsource.idAt_nil
      (fun tree htree => hplaces _ (Forest.mem_places_of_mem_trees htree []))
      (fun name hname => hbelow.plain_of_mem_names hname) hstart hstart.idAt_nil rfl ?_ ?_
    · refine Merging.nextId_le_andThen fun hnone => ?_
      exact (grows_mergeForest _ (hchildren hnone) hbelow).nextId_le
        (hgrows.evolves.wellFormed hstart.wellFormed)
    · -- What is below the root is all that is on the stack, so nothing is left behind it.
      intro hnone pairs after hafter hpairs
      rw [hwhole, Merging.andThen_of_none _ hnone]
      set inside := mergeForest (merge.mode source) source.root.below [] visited.1 with hinside
      have hdone : run (merge.loop next []) = run (pure () : Run ι Unit) := by rw [Merge.loop]
      have hrest : Follows next inside.1.nextId (merge.loop next (pairs ++ [])) after
          (inside.andThen fun archive => (archive, none)) fun _ => True :=
        follows_loop hnext hsource hplaces hbelow hpairs hafter rfl le_rfl
          fun _ final hfinal => Ends.of_run_eq (congrFun hdone final) (Follows.pure hfinal trivial)
      rwa [Merging.andThen_done] at hrest
  have hpolicy : run (mergeFrom next arena streams keepDuplicates) target
      = run (merge.loop next [(Handle.root, Handle.root)]) { target with policy := settings } := by
    rw [mergeFrom, run_modify_bind, hsettings, ← h.policy_eq]
  exact (Ends.of_run_eq hpolicy hloop).mono (fun hout => hout)
    (fun _ _ hpost => ⟨hpost.1, hpost.2.1⟩) fun _ _ hfail => hfail

end Arena

end HashArchive
