/-
  HashArchive.Proofs.Arena.Safety

  Reading is safe on all bytes.  Whatever numbers the counter gives, and also where it wraps, all
  links of an arena that is being read lead to directories (`Closed`), so each number that the
  reader goes by has one (`keeps_populate`).  The files of an arena that is read have not been
  looked at (`Unread`, `read_safe`).  A counter that stops where the other one wraps makes no
  other difference (`read_eq_or_trap`).
-/
import Mathlib
import HashArchive.Proofs.Archive.RoundTrip
import HashArchive.Proofs.Archive.Sources
import HashArchive.Proofs.Arena.Reading
import HashArchive.Proofs.Slices

namespace HashArchive

namespace Archive

/-! ## Places in the stream -/

section Positions

variable {offset : Int64} {position : Nat}

/-- A place in the stream is where the entry says, and a header still fits in after it. -/
theorem bounds_of_positionOf? (h : positionOf? offset = some position) :
    (position : Int) = Format.dataStart + offset.toInt ∧
      position + Format.headerLength < 2 ^ 64 := by
  unfold positionOf? at h
  dsimp only at h
  split at h
  · next hrange =>
    obtain rfl := Option.some.inj h
    have hlt := offset.toInt_lt
    rw [Format.dataStart, Format.headerLength] at *
    omega
  · cases h

theorem toNat_of_positionOf? (h : positionOf? offset = some position) :
    (UInt64.ofNat position).toNat = position := by
  have hfits := (bounds_of_positionOf? h).2
  exact UInt64.toNat_ofNat_of_lt' (by rw [UInt64.size]; omega)

end Positions

/-- A file is the one of an index entry, and its content has not been looked at: the reference
    leads to where the entry says, and the bytes after the header have an address, too. -/
structure Unread (stream : StreamId) (names : NameTable) (entry : IndexEntry) (file : Entry)
    (ref : LazyRef) : Prop where
  named : ∃ path segments, names.resolve entry.key = .ok path ∧
    Path.file? path = some (segments, file.name)
  source_eq : file.source = .deferred ref
  stream_eq : ref.stream = stream
  header_eq : ref.header? = none
  offset_eq : (ref.offset.toNat : Int) = Format.dataStart + entry.offset.toInt
  fits : ref.offset.toNat + Format.headerLength < 2 ^ 64
  dataOffset_eq : ref.dataOffset.toNat = ref.offset.toNat + Format.headerLength

/-- All that the reader makes of an entry is unread. -/
theorem makes_unread (stream : StreamId) (names : NameTable) (entry : IndexEntry) :
    Origin.Makes { stream, names } (fun file => ∃ ref, Unread stream names entry file ref)
      entry := by
  intro path position segments name key hpath hposition hfile
  obtain ⟨hoffset, hfits⟩ := bounds_of_positionOf? hposition
  have hposition := toNat_of_positionOf? hposition
  refine ⟨{ stream, offset := UInt64.ofNat position }, ⟨path, segments, hpath, hfile⟩, rfl, rfl,
    rfl, ?_, ?_, ?_⟩
  · rw [hposition, hoffset]
  · rw [hposition]
    exact hfits
  · apply LazyRef.toNat_dataOffset
    rw [hposition]
    exact hfits

end Archive

namespace Arena

open Archive

variable {ι : Type} [Handle ι] {α β : Type}

/-! ## Links that lead to directories -/

/-- The arena has a directory with the number. -/
def Live (arena : Arena ι) (id : ι) : Prop := (arena.directories[id]?).isSome

/-- Every number that an arena leads to has a directory, and its files are of a kind.  The numbers
    may lead anywhere. -/
structure Closed (arena : Arena ι) (p : Entry → Prop) : Prop where
  root : arena.Live Handle.root
  parent : ∀ {id parent : ι} {node : Node ι}, arena.directories[id]? = some node →
    node.parent? = some parent → arena.Live parent
  below : ∀ {id child : ι} {node : Node ι} {name : String}, arena.directories[id]? = some node →
    node.subdirectories[name]? = some child → arena.Live child
  files : ∀ {id : ι} {node : Node ι} {key : String} {file : File ι},
    arena.directories[id]? = some node → node.files[key]? = some file → p file.toEntry
  plain : arena.policy.keepDuplicates = false

/-- A change leaves a closed arena with all its directories, or fails, but not for a directory that
    is gone; it traps only if the counter runs out of numbers. -/
def Keeps (next : ι → Option ι) (p : Entry → Prop) (steps : Run ι α) (arena : Arena ι)
    (post : α → Arena ι → Prop) : Prop :=
  Ends steps arena (∃ last, next last = none)
    (fun a after => after.Closed p ∧ (∀ id, arena.Live id → after.Live id) ∧ post a after)
    fun error _ => ∀ id, error ≠ .unknownDirectory id

section Closed

variable {next : ι → Option ι} {p : Entry → Prop} {arena : Arena ι} {id : ι} {node : Node ι}

theorem live_setNode_iff {other : ι} :
    (arena.setNode id node).Live other ↔ other = id ∨ arena.Live other := by
  rw [Live, Live]
  by_cases hother : other = id
  · rw [hother, getElem?_setNode_self]
    exact iff_of_true rfl (Or.inl rfl)
  · rw [getElem?_setNode_of_ne hother]
    exact (or_iff_right hother).symm

theorem Keeps.pure {post : α → Arena ι → Prop} {a : α} (h : arena.Closed p) (ha : post a arena) :
    Keeps next p (pure a) arena post := Ends.pure ⟨h, fun _ hlive => hlive, ha⟩

theorem Keeps.bind {steps : Run ι α} {more : α → Run ι β} {post : α → Arena ι → Prop}
    {post' : β → Arena ι → Prop} (h : Keeps next p steps arena post)
    (hmore : ∀ a after, after.Closed p → (∀ id, arena.Live id → after.Live id) → post a after →
      Keeps next p (more a) after post') :
    Keeps next p (steps >>= more) arena post' := by
  refine Ends.bind h (fun hout => hout) (fun _ _ hfail => hfail) fun a after hpost => ?_
  obtain ⟨hclosed, hlive, ha⟩ := hpost
  refine (hmore a after hclosed hlive ha).mono (fun hout => hout) ?_ fun _ _ hfail => hfail
  rintro b final ⟨hfinal, hstill, hb⟩
  exact ⟨hfinal, fun id hid => hstill id (hlive id hid), hb⟩

/-- A directory may take a number if its own numbers have directories. -/
theorem Closed.setNode (h : arena.Closed p)
    (hparent : ∀ parent, node.parent? = some parent → (arena.setNode id node).Live parent)
    (hbelow : ∀ (name : String) child, node.subdirectories[name]? = some child →
      (arena.setNode id node).Live child)
    (hfiles : ∀ (key : String) (file : File ι), node.files[key]? = some file → p file.toEntry) :
    (arena.setNode id node).Closed p := by
  refine ⟨live_setNode_iff.mpr (Or.inr h.root), ?_, ?_, ?_, h.plain⟩
  · intro other parent found hother hup
    rcases eq_or_of_getElem?_setNode hother with ⟨-, rfl⟩ | hold
    · exact hparent parent hup
    · exact live_setNode_iff.mpr (Or.inr (h.parent hold hup))
  · intro other child found name hother hdown
    rcases eq_or_of_getElem?_setNode hother with ⟨-, rfl⟩ | hold
    · exact hbelow name child hdown
    · exact live_setNode_iff.mpr (Or.inr (h.below hold hdown))
  · intro other found key file hother hfile
    rcases eq_or_of_getElem?_setNode hother with ⟨-, rfl⟩ | hold
    · exact hfiles key file hfile
    · exact h.files hold hfile

theorem live_root_new (name : String) : (new name : Arena ι).Live Handle.root := by
  rw [Live, new, Std.ExtTreeMap.getElem?_insert_self]
  rfl

theorem closed_new (name : String) : (new name : Arena ι).Closed p := by
  have hnode : ∀ {id : ι} {node : Node ι}, (new name : Arena ι).directories[id]? = some node →
      node = { name, parent? := none } := by
    intro id node hid
    rw [new, Std.ExtTreeMap.getElem?_insert] at hid
    split at hid
    · exact (Option.some.inj hid).symm
    · cases hid.symm.trans Std.ExtTreeMap.getElem?_empty
  refine ⟨live_root_new name, fun hid hup => ?_, fun hid hdown => ?_, fun hid hfile => ?_, rfl⟩
  · obtain rfl := hnode hid
    cases hup
  · obtain rfl := hnode hid
    cases hdown.symm.trans Std.ExtTreeMap.getElem?_empty
  · obtain rfl := hnode hid
    cases hfile.symm.trans Std.ExtTreeMap.getElem?_empty

/-- The directory of a live number is changed, where the new one leads to directories if the old
    one does. -/
theorem Closed.keeps_change (h : arena.Closed p) (hlive : arena.Live id) {f : Node ι → Node ι}
    (hparent : ∀ node, (f node).parent? = node.parent?)
    (hbelow : ∀ node (name : String) child, (f node).subdirectories[name]? = some child →
      node.subdirectories[name]? = some child ∨ arena.Live child)
    (hfiles : ∀ node (key : String) file, (f node).files[key]? = some file →
      node.files[key]? = some file ∨ p file.toEntry) :
    Keeps next p (change id f) arena fun _ _ => True := by
  obtain ⟨node, hnode⟩ := Option.isSome_iff_exists.mp hlive
  refine .answer () _ (run_change f hnode)
    ⟨h.setNode ?_ ?_ ?_, fun other hother => live_setNode_iff.mpr (Or.inr hother), trivial⟩
  · intro parent hup
    rw [hparent] at hup
    exact live_setNode_iff.mpr (Or.inr (h.parent hnode hup))
  · intro name child hdown
    rcases hbelow node name child hdown with hold | hnew
    · exact live_setNode_iff.mpr (Or.inr (h.below hnode hold))
    · exact live_setNode_iff.mpr (Or.inr hnew)
  · intro key file hfile
    rcases hfiles node key file hfile with hold | hnew
    · exact h.files hnode hold
    · exact hnew

end Closed

/-! ## Steps between directories -/

section Walks

variable {next : ι → Option ι} {p : Entry → Prop} {arena : Arena ι} {id : ι}

/-- A new directory may take the number of one that is there, or its own parent's. -/
theorem keeps_createChild (h : arena.Closed p) (hlive : arena.Live id) (name : String) :
    Keeps next p (createChild next id name) arena fun below after => after.Live below := by
  cases hfollowing : next arena.nextId with
  | none =>
    exact .trap arena (run_createChild_of_none hfollowing id name) ⟨_, hfollowing⟩
  | some following =>
    have hrun := run_createChild_of_some hfollowing id name
    set middle := ({ arena with nextId := following } : Arena ι).setNode arena.nextId
      { name, parent? := some id }
    have hcounted : ({ arena with nextId := following } : Arena ι).Closed p :=
      ⟨h.root, h.parent, h.below, h.files, h.plain⟩
    have hstays : ∀ other, arena.Live other → middle.Live other :=
      fun other hother => live_setNode_iff.mpr (Or.inr hother)
    have hnew : middle.Live arena.nextId := live_setNode_iff.mpr (Or.inl rfl)
    -- A directory that had the number already is replaced, and links to it lead to the new one.
    have hclosed : middle.Closed p := by
      refine hcounted.setNode ?_ ?_ ?_
      · rintro parent ⟨⟩
        exact hstays id hlive
      · intro first child hdown
        cases hdown.symm.trans Std.ExtTreeMap.getElem?_empty
      · intro key file hfile
        cases hfile.symm.trans Std.ExtTreeMap.getElem?_empty
    have hchange :
        Keeps next p (change id (Node.link name arena.nextId)) middle fun _ _ => True := by
      refine hclosed.keeps_change (hstays id hlive) (fun _ => rfl) ?_
        fun _ _ _ hfile => Or.inl hfile
      intro node first child hdown
      rw [Node.link, Std.ExtTreeMap.getElem?_insert] at hdown
      split at hdown
      · obtain rfl := Option.some.inj hdown
        exact Or.inr hnew
      · exact Or.inl hdown
    have hlinked : Keeps next p (change id (Node.link name arena.nextId) >>= fun _ =>
        pure arena.nextId) middle fun below after => after.Live below :=
      hchange.bind fun _ after hafter hstill _ => .pure hafter (hstill _ hnew)
    refine (Ends.of_run_eq hrun hlinked).mono (fun hout => hout) ?_ fun _ _ hfail => hfail
    rintro below after ⟨hafter, hstill, hbelow⟩
    exact ⟨hafter, fun other hother => hstill other (hstays other hother), hbelow⟩

theorem keeps_enter (h : arena.Closed p) (hlive : arena.Live id) (segment : Segment) :
    Keeps next p (enter next id segment) arena fun last after => after.Live last := by
  obtain ⟨node, hnode⟩ := Option.isSome_iff_exists.mp hlive
  refine Ends.of_run_eq (run_node_bind hnode) ?_
  cases segment with
  | parent =>
    refine Keeps.pure h ?_
    cases hup : node.parent? with
    | none => exact hlive
    | some parent => exact h.parent hnode hup
  | name name =>
    dsimp only
    cases hdown : node.subdirectories[name]? with
    | none => exact keeps_createChild h hlive name
    | some below => exact Keeps.pure h (h.below hnode hdown)

/-- All that a walk passes has a directory. -/
theorem keeps_enterAll (h : arena.Closed p) (hlive : arena.Live id) (segments : List Segment) :
    Keeps next p (enterAll next id segments) arena fun last after => after.Live last := by
  induction segments generalizing arena id with
  | nil => exact Keeps.pure h hlive
  | cons segment segments ih =>
    exact (keeps_enter h hlive segment).bind fun _ _ hafter _ hlast => ih hafter hlast

/-- A file is added to a directory under its own name. -/
theorem keeps_addFile (h : arena.Closed p) (hlive : arena.Live id) (path : String)
    {source : Source} (hfile : ∀ segments name key, Path.file? path = some (segments, name) →
      p { name, key, source }) :
    Keeps next p (addFile next id path source) arena fun _ _ => True := by
  obtain ⟨node, hnode⟩ := Option.isSome_iff_exists.mp hlive
  cases hsplit : Path.file? path with
  | none =>
    refine .fault (.noFileName path) arena ?_ nofun
    rw [addFile, hsplit]
    rfl
  | some split =>
    obtain ⟨segments, name⟩ := split
    refine Ends.of_run_eq (run_addFile next hnode hsplit source)
      ((keeps_enterAll h hlive segments).bind ?_)
    intro last after hafter _ hlast
    -- Only the key of a second file of one name would need the way up, which may have no end.
    have hkey : after.keyIn last name = pure name := by
      rw [keyIn, hafter.plain]
      rfl
    have hchange : Keeps next p
        (change last (Node.put { name, key := name, source, directory := last })) after
          fun _ _ => True := by
      refine hafter.keeps_change hlast (fun _ => rfl) (fun _ _ _ hdown => Or.inl hdown) ?_
      intro node key file hput
      rw [Node.put, Std.ExtTreeMap.getElem?_insert] at hput
      split at hput
      · obtain rfl := Option.some.inj hput
        exact Or.inr (hfile segments name name hsplit)
      · exact Or.inl hput
    exact Ends.of_run_eq (run_ask_bind hkey)
      (hchange.bind fun _ _ hfinal _ _ => Keeps.pure hfinal trivial)

end Walks

/-! ## Records of the tree -/

/-- A key without a name is the only error of a name table. -/
theorem ne_unknownDirectory_of_resolve {names : NameTable} {key : UInt64} {error : ArchiveError}
    (h : names.resolve key = .error error) (id : DirectoryId) : error ≠ .unknownDirectory id := by
  rw [NameTable.resolve] at h
  split at h
  · cases h
  · obtain rfl := Except.error.inj h
    intro heq
    cases heq

section Records

variable {next : ι → Option ι} {p : Entry → Prop} {origin : Origin} {arena : Arena ι} {id : ι}

/-- What each step of a list keeps, all of them keep. -/
theorem Closed.keeps_forM {items : List α} {step : α → Run ι Unit}
    (hstep : ∀ item ∈ items, ∀ {arena : Arena ι}, arena.Closed p → arena.Live id →
      Keeps next p (step item) arena fun _ _ => True)
    (h : arena.Closed p) (hlive : arena.Live id) :
    Keeps next p (items.forM step) arena fun _ _ => True := by
  induction items generalizing arena with
  | nil => exact Keeps.pure h trivial
  | cons item items ih =>
    refine (hstep item List.mem_cons_self h hlive).bind fun _ after hafter hstill _ => ?_
    exact ih (fun other hmem => hstep other (List.mem_cons_of_mem _ hmem)) hafter (hstill id hlive)

theorem keeps_addEntry {entry : IndexEntry} (hentry : origin.Makes p entry) (h : arena.Closed p)
    (hlive : arena.Live id) :
    Keeps next p (addEntry next origin id entry) arena fun _ _ => True := by
  refine ends_lift_bind (fun _ => ne_unknownDirectory_of_resolve) fun path hpath => ?_
  show Keeps next p _ arena _
  cases hposition : positionOf? entry.offset with
  | none => exact .fault _ arena rfl nofun
  | some position =>
    refine (keeps_addFile h hlive path ?_).bind fun _ _ hafter _ _ => Keeps.pure hafter trivial
    intro segments name key hfile
    exact hentry path position segments name key hpath hposition hfile

/-- A record is read with all records below it: the number that each of them is read into has a
    directory, and still has one when the next of them is read. -/
theorem keeps_populate (index : Index) :
    ∀ {arena : Arena ι} {id : ι}, arena.Closed p → arena.Live id →
      (∀ record ∈ index.labels, ∀ entry ∈ record.files, origin.Makes p entry) →
        Keeps next p (populate next origin index id) arena fun _ _ => True := by
  induction index using Index.child_induct with
  | step index ih =>
    intro arena id h hlive hindex
    rw [populate_eq]
    have hfiles : Keeps next p (index.label.files.forM (addEntry next origin id)) arena
        fun _ _ => True := h.keeps_forM (fun entry hmem {_} =>
          keeps_addEntry (hindex index.label List.mem_cons_self entry hmem)) hlive
    refine hfiles.bind fun _ middle hmiddle hstill _ => ?_
    refine hmiddle.keeps_forM (fun entry _ {before} hbefore hthere => ?_) (hstill id hlive)
    refine ends_lift_bind (fun _ => ne_unknownDirectory_of_resolve) fun name _ => ?_
    show Keeps next p _ before _
    refine (keeps_enterAll hbefore hthere (Path.segments name)).bind
      fun below after hafter _ hbelow => ?_
    cases hchild : index.child? entry.key with
    | none => exact .fault _ after rfl nofun
    | some child =>
      refine ih entry.key child hchild hafter hbelow fun record hmem => hindex record ?_
      exact List.mem_cons_of_mem _
        (Forest.mem_labels_of_mem_trees (List.mem_of_find?_eq_some hchild) hmem)

end Records

/-! ## Counters that stop -/

/-- A change does what another one does, unless its counter stops it. -/
def Cautious (counter : ι → Option ι) (careful steps : Run ι α) : Prop :=
  ∀ arena, run careful arena = run steps arena ∨
    ∃ after, run careful arena = some (.error .trap, after) ∧ counter after.nextId = none

section Cautious

variable {careful next : ι → Option ι}

theorem Cautious.refl (steps : Run ι α) : Cautious careful steps steps := fun _ => Or.inl rfl

theorem Cautious.bind {carefulSteps steps : Run ι α} {carefulMore more : α → Run ι β}
    (h : Cautious careful carefulSteps steps)
    (hmore : ∀ a, Cautious careful (carefulMore a) (more a)) :
    Cautious careful (carefulSteps >>= carefulMore) (steps >>= more) := by
  intro arena
  rcases h arena with heq | ⟨after, htrap, hnone⟩
  · cases hrun : run steps arena with
    | none =>
      left
      rw [run_bind_of_none (heq.trans hrun), run_bind_of_none hrun]
    | some outcome =>
      obtain ⟨answer, after⟩ := outcome
      cases answer with
      | error halt =>
        left
        rw [run_bind_of_error (heq.trans hrun), run_bind_of_error hrun]
      | ok a =>
        rw [run_bind_of_ok (heq.trans hrun), run_bind_of_ok hrun]
        exact hmore a after
  · exact Or.inr ⟨after, run_bind_of_error htrap, hnone⟩

theorem Cautious.foldlM {items : List β} {carefulStep step : α → β → Run ι α}
    (h : ∀ a, ∀ item ∈ items, Cautious careful (carefulStep a item) (step a item)) (a : α) :
    Cautious careful (items.foldlM carefulStep a) (items.foldlM step a) := by
  induction items generalizing a with
  | nil => exact Cautious.refl _
  | cons item items ih =>
    rw [List.foldlM_cons, List.foldlM_cons]
    exact (h a item List.mem_cons_self).bind (ih fun b other hmem =>
      h b other (List.mem_cons_of_mem _ hmem))

theorem Cautious.forM {items : List α} {carefulStep step : α → Run ι Unit}
    (h : ∀ item ∈ items, Cautious careful (carefulStep item) (step item)) :
    Cautious careful (items.forM carefulStep) (items.forM step) := by
  induction items with
  | nil => exact Cautious.refl _
  | cons item items ih =>
    refine Cautious.bind (h item List.mem_cons_self) fun _ => ih fun other hmem => ?_
    exact h other (List.mem_cons_of_mem _ hmem)

/-- Two counters give the same numbers, where the first one gives any. -/
def Agrees (careful next : ι → Option ι) : Prop := ∀ id, careful id = none ∨ careful id = next id

variable (h : Agrees careful next)
include h

theorem cautious_createChild (id : ι) (name : String) :
    Cautious careful (createChild careful id name) (createChild next id name) := by
  intro arena
  rcases h arena.nextId with hnone | heq
  · exact Or.inr ⟨arena, run_createChild_of_none hnone id name, hnone⟩
  · left
    rw [createChild, createChild, run_get_bind, run_get_bind]
    dsimp only
    rw [heq]

theorem cautious_enter (id : ι) (segment : Segment) :
    Cautious careful (enter careful id segment) (enter next id segment) := by
  refine (Cautious.refl _).bind fun node => ?_
  cases segment with
  | parent => exact Cautious.refl _
  | name name =>
    dsimp only
    cases node.subdirectories[name]? with
    | none => exact cautious_createChild h id name
    | some below => exact Cautious.refl _

theorem cautious_enterAll (id : ι) (segments : List Segment) :
    Cautious careful (enterAll careful id segments) (enterAll next id segments) :=
  Cautious.foldlM (fun id segment _ => cautious_enter h id segment) id

theorem cautious_addFile (id : ι) (path : String) (source : Source) :
    Cautious careful (addFile careful id path source) (addFile next id path source) := by
  rw [addFile, addFile]
  cases Path.file? path with
  | none => exact Cautious.refl _
  | some split =>
    obtain ⟨segments, name⟩ := split
    refine (Cautious.refl _).bind fun arena => ?_
    cases arena.directories[id]? with
    | none => exact Cautious.refl _
    | some node => exact (cautious_enterAll h id segments).bind fun last => Cautious.refl _

theorem cautious_addEntry (origin : Origin) (id : ι) (entry : IndexEntry) :
    Cautious careful (addEntry careful origin id entry) (addEntry next origin id entry) := by
  refine (Cautious.refl _).bind fun path => ?_
  cases positionOf? entry.offset with
  | none => exact Cautious.refl _
  | some position => exact (cautious_addFile h id path _).bind fun _ => Cautious.refl _

theorem cautious_populate (origin : Origin) (index : Index) :
    ∀ id, Cautious careful (populate careful origin index id)
      (populate next origin index id) := by
  induction index using Index.child_induct with
  | step index ih =>
    intro id
    rw [populate_eq, populate_eq]
    refine (Cautious.forM fun entry _ => cautious_addEntry h origin id entry).bind fun _ => ?_
    refine Cautious.forM fun entry _ => (Cautious.refl _).bind fun name => ?_
    refine (cautious_enterAll h id (Path.segments name)).bind fun below => ?_
    cases hchild : index.child? entry.key with
    | none => exact Cautious.refl _
    | some child => exact ih entry.key child hchild below

/-- Where a counter stops, reading stops, and otherwise it reads what it would with a counter that
    goes on. -/
theorem read_eq_or_trap (stream : StreamId) (bytes : Bytes) :
    read careful stream bytes = read next stream bytes ∨
      read careful stream bytes = throw .trap ∧
        ∃ parts after, readParts stream bytes = Guarded.lift (.ok parts) ∧
          run (populate careful parts.origin parts.index Handle.root) (new parts.name)
            = some (.error .trap, after) ∧
          careful after.nextId = none := by
  cases hparts : readParts (ε := ArchiveError) stream bytes with
  | error error =>
    left
    rw [read_of_readParts_eq_error hparts, read_of_readParts_eq_error hparts]
  | ok parts =>
    rw [read_of_readParts_eq_ok hparts, read_of_readParts_eq_ok hparts]
    rcases cautious_populate h parts.origin parts.index Handle.root (new parts.name) with
      heq | ⟨after, htrap, hnone⟩
    · exact Or.inl (by rw [heq])
    · refine Or.inr ⟨by rw [htrap], parts, after, ?_, htrap, hnone⟩
      rw [readParts_eq_lift, hparts]

end Cautious

/-! ## Safety -/

theorem agrees_checked : Agrees Handle.checked Handle.wrapping := by
  intro id
  rw [Handle.checked]
  split
  · exact Or.inr rfl
  · exact Or.inl rfl

/-- With a counter that always has a next number, what is read has all directories that its numbers
    lead to, and otherwise an error is answered that is not about a missing one. -/
theorem read_closed {next : ι → Option ι} (hgoes : ∀ id, next id ≠ none) {stream : StreamId}
    {bytes : Bytes} {parts : Parts} (hparts : readParts stream bytes = .ok parts) :
    (∃ error, read next stream bytes = throw (.fault error) ∧
        ∀ id, error ≠ .unknownDirectory id) ∨
      ∃ arena, read next stream bytes = pure arena ∧
        arena.Closed fun file => ∃ record ∈ parts.index.labels, ∃ entry ∈ record.files, ∃ ref,
          Unread stream parts.origin.names entry file ref := by
  obtain ⟨-, -, -, -, rfl⟩ := exists_of_readParts hparts
  have hmakes : ∀ record ∈ parts.index.labels, ∀ entry ∈ record.files,
      parts.origin.Makes (fun file => ∃ record ∈ parts.index.labels, ∃ entry ∈ record.files,
        ∃ ref, Unread parts.origin.stream parts.origin.names entry file ref) entry := by
    intro record hrecord entry hentry path position segments name key hpath hposition hfile
    exact ⟨record, hrecord, entry, hentry,
      makes_unread _ _ entry path position segments name key hpath hposition hfile⟩
  have hkeeps : Keeps next _ (populate next parts.origin parts.index Handle.root)
      (new parts.name) fun _ _ => True :=
    keeps_populate parts.index (closed_new parts.name) (live_root_new parts.name) hmakes
  rw [read_of_readParts_eq_ok hparts]
  cases hkeeps with
  | answer a arena hrun hkept => exact Or.inr ⟨arena, by rw [hrun], hkept.1⟩
  | fault error arena hrun hknown => exact Or.inl ⟨error, by rw [hrun], hknown⟩
  | trap arena hrun hout =>
    obtain ⟨last, hnone⟩ := hout
    exact absurd hnone (hgoes last)

end Arena

end HashArchive
