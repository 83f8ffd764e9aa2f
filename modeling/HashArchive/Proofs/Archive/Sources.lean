/-
  HashArchive.Proofs.Archive.Sources

  Where the files of a read archive come from.  The reader makes a file for an index entry
  and leaves its bytes in the stream, at the place that the entry names; so a property of
  all that it can make of the entries is one of all files that are read (`AllFiles.of_read`),
  and one of the sources alone is so whatever the names are (`Sourced.of_read`).
-/
import Mathlib
import HashArchive.Proofs.Archive.Operations

namespace HashArchive

/-- A file that is put among others takes the place of some and brings no other. -/
theorem Entry.eq_or_mem_of_mem_put {entry other : Entry} {entries : List Entry}
    (h : other ∈ entry.put entries) : other = entry ∨ other ∈ entries := by
  induction entries with
  | nil => exact Or.inl (List.mem_singleton.mp h)
  | cons first rest ih =>
    rw [put] at h
    split at h
    · rcases List.mem_cons.mp h with rfl | h
      · exact Or.inr List.mem_cons_self
      · exact (ih h).imp_right (List.mem_cons_of_mem _)
    · split at h
      · exact (List.mem_cons.mp h).imp_right (List.mem_cons_of_mem _)
      · exact List.mem_cons.mp h

namespace Archive

/-- All files of an archive are of a kind. -/
def AllFiles (p : Entry → Prop) (archive : Archive) : Prop :=
  ∀ directory ∈ archive.root.labels, ∀ entry ∈ directory.files, p entry

section AllFiles

variable {p : Entry → Prop} {archive after : Archive} {location : Location}

theorem AllFiles.of_mem_files (h : archive.AllFiles p) {file : StoredFile}
    (hmem : file ∈ archive.files) : p file.entry := by
  obtain ⟨hplace, hentry⟩ := mem_files_iff.mp hmem
  exact h _ (label_mem_of_mem_places hplace) _ hentry

theorem allFiles_new (name : String) : (new name).AllFiles p := by
  intro directory hmem entry hentry
  obtain rfl : directory = { id := rootId, name } := by
    simpa [new, Tree.labels, Forest.labels] using hmem
  cases hentry

theorem AllFiles.putFile (h : archive.AllFiles p) {entry : Entry} (hentry : p entry)
    (location : Location) : (archive.putFile location entry).AllFiles p := by
  intro directory hmem other hother
  rcases Tree.mem_labels_update_updateRoot hmem with hmem | ⟨old, hold, rfl⟩
  · exact h directory hmem other hother
  · rcases Entry.eq_or_mem_of_mem_put hother with rfl | hother
    · exact hentry
    · exact h old hold other hother

theorem AllFiles.addDirectory (h : archive.AllFiles p) (location : Location) (name : String) :
    (archive.addDirectory location name).AllFiles p := by
  intro directory hmem entry hentry
  have hmem : directory ∈ (archive.root.update
    (Tree.addBelow { id := archive.nextId, name }) location).labels := hmem
  cases hlive : archive.root.descend? location with
  | none =>
    rw [Tree.update_of_descend?_eq_none hlive] at hmem
    exact h directory hmem entry hentry
  | some tree =>
    have hperm := Tree.labels_update_addBelow { id := archive.nextId, name }
      (Option.isSome_of_eq_some hlive)
    rcases List.mem_cons.mp (hperm.mem_iff.mp hmem) with rfl | hold
    · cases hentry
    · exact h directory hold entry hentry

theorem AllFiles.enter (h : archive.AllFiles p) (location : Location) (segment : Segment) :
    (archive.enter location segment).1.AllFiles p := by
  cases segment with
  | parent => exact h
  | name name =>
    by_cases hthere : archive.Live (location ++ [name])
    · rw [enter_name_of_live hthere]
      exact h
    · rw [enter_name_of_not_live hthere]
      exact h.addDirectory location name

theorem AllFiles.enterAll (h : archive.AllFiles p) (location : Location)
    (segments : List Segment) : (archive.enterAll location segments).1.AllFiles p := by
  induction segments generalizing archive location with
  | nil => exact h
  | cons segment segments ih => exact ih (h.enter location segment) _

theorem AllFiles.putFileAt (h : archive.AllFiles p) {name : String} {source : Source}
    (hentry : ∀ key, p { name, key, source }) (location : Location) (segments : List Segment) :
    (archive.putFileAt location segments name source).1.AllFiles p :=
  (h.enterAll location segments).putFile (hentry _) _

/-! ## Archives from bytes -/

/-- All that the reader can make of an index entry is of a kind. -/
def Origin.Makes (origin : Origin) (p : Entry → Prop) (entry : IndexEntry) : Prop :=
  ∀ path position segments name key, origin.names.resolve entry.key = .ok path →
    positionOf? entry.offset = some position → Path.file? path = some (segments, name) →
      p { name, key
          source := .deferred { stream := origin.stream, offset := UInt64.ofNat position } }

variable {origin : Origin}

theorem AllFiles.addFile (h : archive.AllFiles p) {entry : IndexEntry}
    (hentry : origin.Makes p entry) (hrun : origin.addFile location archive entry = .ok after) :
    after.AllFiles p := by
  obtain ⟨path, position, segments, name, hpath, hposition, hfile, rfl⟩ := exists_of_addFile hrun
  apply h.putFileAt
  intro key
  exact hentry path position segments name key hpath hposition hfile

theorem AllFiles.addFiles (h : archive.AllFiles p) {entries : List IndexEntry}
    (hentries : ∀ entry ∈ entries, origin.Makes p entry)
    (hrun : origin.addFiles location archive entries = .ok after) : after.AllFiles p := by
  rw [Origin.addFiles] at hrun
  apply Outcome.foldlM_induct hrun h
  intro entry hmem before next hnext hbefore
  exact hbefore.addFile (hentries entry hmem) hnext

theorem AllFiles.addDirectories {index : Index} {entries : List IndexEntry}
    (h : archive.AllFiles p)
    (hindex : ∀ record ∈ index.below.labels, ∀ entry ∈ record.files, origin.Makes p entry)
    (hrun : origin.addDirectories index location archive entries = .ok after) :
    after.AllFiles p := by
  refine addDirectories_induct (motive := fun index _ archive _ after =>
    (∀ record ∈ index.below.labels, ∀ entry ∈ record.files, origin.Makes p entry) →
      archive.AllFiles p → after.AllFiles p) ?_ ?_ hrun hindex h
  · exact fun _ _ _ _ h => h
  · intro index location archive _ _ name child _ _ _ hchild hfiles hbelow hrest hindex h
    have hrecords : ∀ record ∈ child.labels, ∀ entry ∈ record.files, origin.Makes p entry :=
      fun record hmem => hindex record
        (Forest.mem_labels_of_mem_trees (List.mem_of_find?_eq_some hchild) hmem)
    have hfilled := (h.enterAll location (Path.segments name)).addFiles
      (hrecords child.label List.mem_cons_self) hfiles
    have hdeeper := hbelow
      (fun record hmem => hrecords record (List.mem_cons_of_mem _ hmem)) hfilled
    exact hrest hindex hdeeper

/-- What holds of all that the reader can make of the entries of the first index holds of all
    files that are read. -/
theorem AllFiles.of_read {stream : StreamId} {bytes : Bytes}
    (hindex : ∀ payloads index names, readPayloads bytes = .ok payloads →
      Index.parse payloads.utf16 = .ok index → NameTable.parse payloads.names = .ok names →
        ∀ record ∈ index.labels, ∀ entry ∈ record.files, Origin.Makes { stream, names } p entry)
    (hread : read stream bytes = .ok after) : after.AllFiles p := by
  obtain ⟨payloads, index, names, rootName, filled, hpayloads, hparse, hnames, hfiles,
    hdirectories⟩ := exists_of_read hread
  have hrecords := hindex payloads index names hpayloads hparse hnames
  have hfilled := (allFiles_new _).addFiles (hrecords index.label List.mem_cons_self) hfiles
  exact hfilled.addDirectories
    (fun record hmem => hrecords record (List.mem_cons_of_mem _ hmem)) hdirectories

end AllFiles

/-! ## Sources -/

/-- All files of an archive have sources of a kind. -/
def Sourced (p : Source → Prop) (archive : Archive) : Prop :=
  ∀ directory ∈ archive.root.labels, ∀ entry ∈ directory.files, p entry.source

section Sourced

variable {p : Source → Prop} {archive after : Archive}

theorem sourced_iff : archive.Sourced p ↔ archive.AllFiles fun entry => p entry.source := Iff.rfl

theorem Sourced.of_mem_files (h : archive.Sourced p) {file : StoredFile}
    (hmem : file ∈ archive.files) : p file.entry.source :=
  (sourced_iff.mp h).of_mem_files hmem

/-- What holds of all places in the stream that the first index names holds of the sources of
    all files that are read. -/
theorem Sourced.of_read {stream : StreamId} {bytes : Bytes}
    (hindex : ∀ payloads index, readPayloads bytes = .ok payloads →
      Index.parse payloads.utf16 = .ok index →
        ∀ record ∈ index.labels, ∀ entry ∈ record.files, ∀ position,
          positionOf? entry.offset = some position →
            p (.deferred { stream, offset := UInt64.ofNat position }))
    (hread : read stream bytes = .ok after) : after.Sourced p := by
  rw [sourced_iff]
  refine AllFiles.of_read (fun payloads index names hpayloads hparse _ => ?_) hread
  intro record hrecord entry hentry path position segments name key _ hposition _
  exact hindex payloads index hpayloads hparse record hrecord entry hentry position hposition

end Sourced

end Archive

end HashArchive
