/-
  HashArchive.Proofs.Archive.Duplicates

  What a merge that keeps duplicates adds up to.  It puts a copy under the whole path of the
  file in its source, so files of one name in one directory of the source take each other's
  place, and so does a file that has such a path for its key already.  Where neither happens
  no file is lost (`counts_of_merge`).
-/
import Mathlib
import HashArchive.Proofs.Archive.Losses
import HashArchive.Proofs.Archive.Overlay

namespace HashArchive

/-- No two files have one name. -/
def Place.NamesApart (place : Place) : Prop := (place.tree.label.files.map (·.name)).Nodup

instance Place.decidableNamesApart (place : Place) : Decidable place.NamesApart :=
  inferInstanceAs (Decidable (List.Nodup _))

/-- The keys of files that are put one after another are those of all of them. -/
theorem Entry.mem_map_key_putAll {copies entries : List Entry} {key : String} :
    key ∈ (putAll copies entries).map (·.key) ↔
      key ∈ copies.map (·.key) ∨ key ∈ entries.map (·.key) := by
  induction copies generalizing entries with
  | nil => simp [putAll]
  | cons copy copies ih =>
    show key ∈ (putAll copies (copy.put entries)).map (·.key) ↔ _
    rw [ih, Archive.mem_map_key_put, List.map_cons, List.mem_cons, or_left_comm, or_assoc]

namespace Archive

/-- Where a merge puts the copy of a file. -/
def copyAddress (source : Archive) (keepDuplicates : Bool) (file : StoredFile) : FileAddress :=
  ⟨file.place.location, source.copyKey keepDuplicates file⟩

/-- No copy of a file that a merge adds takes the place of a file that is there. -/
def NoneReplaced (archive source : Archive) (keepDuplicates : Bool) : Prop :=
  ∀ file ∈ source.files, ∀ other ∈ archive.files,
    other.address ≠ source.copyAddress keepDuplicates file

instance decidableNoneReplaced (archive source : Archive) (keepDuplicates : Bool) :
    Decidable (NoneReplaced archive source keepDuplicates) :=
  inferInstanceAs (Decidable (∀ file ∈ source.files, ∀ other ∈ archive.files, _ ≠ _))

theorem occupied_iff_held {archive : Archive} {address : FileAddress} :
    archive.Occupied address ↔ address.key ∈ (archive.held address.location).map (·.key) := by
  rw [Occupied, held]
  cases archive.filesAt address.location with
  | none => simp
  | some files => simp

section Counts

variable {archive source after : Archive} {streams : Streams} {keepDuplicates : Bool}
  {files : List StoredFile}

/-- After an overlay there is a file where one was before and where a copy was put. -/
theorem Overlaid.occupied_iff (h : Overlaid archive source streams keepDuplicates files after)
    (hread : ∀ file ∈ files, (file.entry.source.detached streams).isOk) {address : FileAddress} :
    after.Occupied address ↔
      archive.Occupied address ∨ address ∈ files.map (source.copyAddress keepDuplicates) := by
  obtain ⟨location, key⟩ := address
  have hcopies : (∀ copy ∈ MergeMode.copiesAt
          { streams, keepDuplicates, sourceName := source.name } files location, copy.key ≠ key) ↔
      ∀ file ∈ files, file.place.location = location → source.copyKey keepDuplicates file ≠ key :=
    forall_copiesAt_key_ne_iff hread
  have hput : key ∈ (MergeMode.copiesAt { streams, keepDuplicates, sourceName := source.name } files
        location).map (·.key) ↔ (⟨location, key⟩ : FileAddress) ∈
          files.map (source.copyAddress keepDuplicates) := by
    rw [← not_iff_not]
    simpa [copyAddress] using hcopies
  rw [occupied_iff_held, occupied_iff_held, h.held, Entry.mem_map_key_putAll, hput, or_comm]

/-- Files are lost in an overlay if and only if copies take each other's place or that of a file
    that is there. -/
theorem Overlaid.length_files (h : Overlaid archive source streams keepDuplicates files after)
    (hformed : archive.WellFormed) (hafter : after.WellFormed)
    (hread : ∀ file ∈ files, (file.entry.source.detached streams).isOk) :
    after.files.length ≤ archive.files.length + files.length ∧
      (after.files.length = archive.files.length + files.length ↔
        (files.map (source.copyAddress keepDuplicates)).Nodup ∧
        ∀ file ∈ files, ∀ other ∈ archive.files,
          other.address ≠ source.copyAddress keepDuplicates file) := by
  set addresses := archive.files.map (·.address) ++ files.map (source.copyAddress keepDuplicates)
  have hmem : ∀ address, address ∈ after.files.map (·.address) ↔ address ∈ addresses := by
    intro address
    rw [mem_addresses_iff hafter, h.occupied_iff hread, List.mem_append, mem_addresses_iff hformed]
  obtain ⟨hle, heq⟩ := length_eq_iff_of_nodup (nodup_addresses hafter)
    fun address hthere => (hmem address).mp hthere
  have hlength : addresses.length = archive.files.length + files.length := by
    rw [List.length_append, List.length_map, List.length_map]
  rw [List.length_map, hlength] at hle heq
  refine ⟨hle, heq.trans ?_⟩
  have hback : addresses ⊆ after.files.map (·.address) := fun address hthere =>
    (hmem address).mpr hthere
  rw [and_iff_left hback, List.nodup_append, and_iff_right (nodup_addresses hformed)]
  refine and_congr_right fun _ => ?_
  simp only [List.mem_map, forall_exists_index, and_imp, forall_apply_eq_imp_iff₂]
  exact ⟨fun hne file hfile other hother => hne other hother file hfile,
    fun hne other hother file hfile => hne file hfile other hother⟩

/-- Copies go to different places if and only if the files of each directory have different
    names. -/
theorem nodup_copyAddresses_iff (h : source.WellFormed) :
    (source.files.map (source.copyAddress keepDuplicates)).Nodup ↔
      ∀ place ∈ source.places, place.NamesApart := by
  rw [List.nodup_map_iff_inj_on (nodup_files h)]
  constructor
  · intro hinj place hplace
    have hentries := (h.sound _ (label_mem_of_mem_places hplace)).ascending.nodup
    refine (List.nodup_map_iff_inj_on hentries).mpr fun entry hentry other hother hname => ?_
    have hsame := hinj ⟨place, entry⟩ (mem_files_iff.mpr ⟨hplace, hentry⟩) ⟨place, other⟩
      (mem_files_iff.mpr ⟨hplace, hother⟩)
      (FileAddress.mk.injEq .. ▸ ⟨rfl, (copyKey_eq_iff (by rfl)).mpr hname⟩)
    exact (StoredFile.mk.inj hsame).2
  · rintro hapart ⟨place, entry⟩ hfile ⟨place', other⟩ hother heq
    obtain ⟨hlocation, hkey⟩ := FileAddress.mk.inj heq
    obtain ⟨hplace, hentry⟩ := mem_files_iff.mp hfile
    obtain ⟨hplace', hother⟩ := mem_files_iff.mp hother
    obtain rfl := List.inj_on_of_nodup_map (nodup_locations h) hplace hplace' hlocation
    have hname : entry.name = other.name := (copyKey_eq_iff (by rfl)).mp hkey
    exact congrArg (StoredFile.mk place)
      (List.inj_on_of_nodup_map (hapart place hplace) hentry hother hname)

end Counts

/-! ## The main statement -/

/-- What becomes of the files of an archive and of a source in a merge that keeps duplicates. -/
structure Accumulates (archive source : Archive) (streams : Streams) (after : Archive) : Prop where
  length_le : after.files.length ≤ archive.files.length + source.files.length
  length_eq_iff : after.files.length = archive.files.length + source.files.length ↔
    NoneReplaced archive source true ∧ ∀ place ∈ source.places, place.NamesApart
  /-- A file stays unless a copy is put where it is. -/
  stays : ∀ file ∈ archive.files,
    (∀ other ∈ source.files, file.address ≠ source.copyAddress true other) →
    file.entry ∈ after.held file.place.location
  /-- A file is copied with its content, unless another one of its name there has a greater key. -/
  copied : ∀ file, Prevails source.files file → ∃ copy ∈ after.held file.place.location,
    copy.name = file.entry.name ∧ copy.key = source.fullPath file ∧
      ∀ others, copy.source.content others = file.entry.source.content streams

/-- A merge that keeps duplicates leaves at most as many files as both archives had.  It loses
    none if and only if no file has the whole path of a file of the source for its key where that
    is copied to, and no two files of one directory of the source have one name. -/
theorem counts_of_merge {archive source : Archive} {streams : Streams} (h : Reachable archive)
    (h' : Reachable source)
    (hread : ∀ file ∈ source.files, (file.entry.source.detached streams).isOk) :
    ∃ after, archive.merge source streams true = (after, none) ∧
      Accumulates archive source streams after := by
  obtain ⟨hgoes, -⟩ := merge_overlays h h' streams true
  obtain ⟨after, hrun, hoverlaid, -⟩ := hgoes hread
  have hafter : after.WellFormed := by
    have hmerged := (Reachable.merge h h' streams true).wellFormed
    rwa [hrun] at hmerged
  obtain ⟨hle, heq⟩ := hoverlaid.length_files h.wellFormed hafter hread
  refine ⟨after, hrun, hle, heq.trans ?_, fun file hfile hne => ?_, fun file hprevails => ?_⟩
  · rw [nodup_copyAddresses_iff h'.wellFormed, and_comm]
    rfl
  · obtain ⟨hplace, hentry⟩ := mem_files_iff.mp hfile
    apply (hoverlaid.entries _ _).mpr
    right
    rw [held_of_mem_places h.wellFormed hplace]
    refine ⟨hentry, fun other hother hlocation hkey => hne other hother ?_⟩
    rw [StoredFile.address, copyAddress, hlocation, hkey]
  · obtain ⟨copy, hcopy⟩ := exists_isCopy_iff.mpr (hread file hprevails.1)
    refine ⟨copy, (hoverlaid.entries _ _).mpr (Or.inl ⟨file, hprevails, rfl, hcopy⟩),
      hcopy.name_eq, hcopy.key_eq, fun others => Source.content_of_detached hcopy.content others⟩

/-- A file of the same path comes to the one that is there. -/
theorem counts_of_merge_shelf :
    ∃ after, shelf.merge shelf shortStreams true = (after, none) ∧ after.files.length = 2 := by
  have hread : ∀ file ∈ shelf.files, (file.entry.source.detached shortStreams).isOk := by
    decide +kernel
  obtain ⟨after, hrun, hcounts⟩ := counts_of_merge reachable_shelf reachable_shelf hread
  exact ⟨after, hrun, hcounts.length_eq_iff.mpr (by decide +kernel)⟩

/-- An archive with two files of one name in its root. -/
def doubled : Archive where
  root := ⟨{ id := rootId, name := "b",
             files := [⟨"x", "s/x", .ofBytes [0x74]⟩, ⟨"x", "x", .ofBytes [0x6F]⟩] }, .nil⟩
  policy := { keepDuplicates := true }

/-- A file of that name is added to each of two archives, and one of them is merged into the
    other. -/
theorem reachable_doubled : Reachable doubled := by
  have hfirst : (new "b").addFile rootId "x" (.ofBytes [0x6F])
      = .ok ((new "b").putFile [] ⟨"x", "x", .ofBytes [0x6F]⟩, ⟨[], "x"⟩) := by rfl
  have hsecond : (new "s").addFile rootId "x" (.ofBytes [0x74])
      = .ok ((new "s").putFile [] ⟨"x", "x", .ofBytes [0x74]⟩, ⟨[], "x"⟩) := by rfl
  have hmerge := Reachable.merge (.addFile (.new "b") hfirst) (.addFile (.new "s") hsecond)
    shortStreams true
  have hdoubled : (((new "b").putFile [] ⟨"x", "x", .ofBytes [0x6F]⟩).merge
      ((new "s").putFile [] ⟨"x", "x", .ofBytes [0x74]⟩) shortStreams true).1 = doubled := by
    decide +kernel
  rwa [hdoubled] at hmerge

/-- When the two files are merged into an archive that has none, one of them is lost. -/
theorem lossy_doubled :
    Reachable (new "d") ∧ Reachable doubled ∧
      (∀ file ∈ doubled.files, (file.entry.source.detached shortStreams).isOk) ∧
      doubled.files.length = 2 ∧
      ∃ after, (new "d").merge doubled shortStreams true = (after, none) ∧
        after.files.length = 1 := by
  have hrun : ((new "d").merge doubled shortStreams true).2 = none ∧
      ((new "d").merge doubled shortStreams true).1.files.length = 1 := by decide +kernel
  exact ⟨.new "d", reachable_doubled, by decide +kernel, by decide +kernel, _,
    Prod.ext rfl hrun.1, hrun.2⟩

end Archive

end HashArchive
