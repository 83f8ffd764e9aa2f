/-
  HashArchive.Proofs.Archive.Acceptance

  Which written archives are read back: those without a directory that is too deep, whatever
  their names are (`read_iff_shallow`).  Everything else that the reader asks for is there.
  Names that stand for directories and files come before the root's in the name table, so each
  of their keys leads to a plain name, if perhaps to another one.
-/
import Mathlib
import HashArchive.Proofs.Archive.Decoding
import HashArchive.Proofs.Archive.Spelled

namespace HashArchive

namespace Index.Plan

variable (plan : Plan)

/-- The entries of the records lead to those below them. -/
theorem keyed_subtree (location : Location) (ancestors : List UInt64) (tree : Tree Directory) :
    (plan.subtree location ancestors tree).Keyed := by
  induction tree using Tree.induct_below generalizing location ancestors with
  | h tree ih =>
    set above := Name.key plan.encoding tree.label.name :: ancestors
    have htrees : (plan.subtree location ancestors tree).below.trees
        = (plan.byKey tree.below).map fun child =>
            plan.subtree (location ++ [child.label.name]) above child :=
      plan.trees_forest_eq location above tree.below
    refine .mk ?_ fun child hchild => ?_
    · rw [map_key_directories_subtree, htrees, List.map_map]
      rfl
    · rw [htrees] at hchild
      obtain ⟨inside, hinside, rfl⟩ := List.mem_map.mp hchild
      exact ih inside ((plan.byKey_perm tree.below).mem_iff.mp hinside) _ _

/-- The records below the root have the keys of directories below the root. -/
theorem exists_place_of_mem_below {root : Tree Directory} {record : IndexRecord}
    (hmem : record ∈ (plan.index root).below.labels) :
    ∃ place ∈ root.below.places [], Name.key plan.encoding place.name = record.id := by
  have hperm := plan.map_labels_forest_perm (f := (·.id))
    (g := fun place => Name.key plan.encoding place.name) (fun _ _ => rfl) []
    [Name.key plan.encoding root.label.name] rfl root.below
  exact List.mem_map.mp (hperm.mem_iff.mp (List.mem_map_of_mem hmem))

/-- The file entries of the records are those of files. -/
theorem exists_file_of_mem_files {root : Tree Directory} {record : IndexRecord}
    (hmem : record ∈ (plan.index root).labels) {entry : IndexEntry}
    (hentry : entry ∈ record.files) :
    ∃ place ∈ root.placesAt [], ∃ file ∈ place.tree.label.files,
      plan.entryAt place.location file = entry := by
  obtain ⟨place, hplace, hsame⟩ := plan.exists_place_of_mem_labels hmem
  obtain ⟨-, hsame⟩ := Prod.mk.inj hsame
  obtain ⟨hfiles, -⟩ := Prod.mk.inj hsame
  rw [← hfiles, entriesAt_eq] at hentry
  obtain ⟨file, hfile, rfl⟩ := List.mem_map.mp hentry
  exact ⟨place, hplace, file, (plan.fileOrder_perm _ _).mem_iff.mp hfile, rfl⟩

end Index.Plan

namespace Archive

section

variable {archive : Archive} {streams : Streams} {deflate : Bytes → Bytes} {bytes payload : Bytes}
  {kept : List Kept} {stream : StreamId}

/-- The name table leads from the key of a directory or file to a plain name. -/
theorem spells_of_mem_names (h : archive.WellFormed) (stream : StreamId) {name : String}
    (hmem : name ∈ archive.files.map (·.entry.name) ++ archive.places.tail.map (·.name)) :
    (archive.originOf stream).names.Spells (Name.key .utf16 name) := by
  refine NameTable.spells_ofName (fun name hname => ?_) hmem
  rcases List.mem_append.mp hname with hname | hname
  · obtain ⟨file, hfile, rfl⟩ := List.mem_map.mp hname
    exact plain_name_of_mem_files h hfile
  · obtain ⟨place, hplace, rfl⟩ := List.mem_map.mp hname
    exact plain_name_of_mem_below h hplace

/-- The root's name stands in the name table, so some name is found for it. -/
theorem exists_resolve_root (archive : Archive) (stream : StreamId) :
    ∃ name, (archive.originOf stream).names.resolve (Name.key .utf16 archive.name) = .ok name := by
  have hsome : (archive.names.find? fun other =>
      Name.key .utf16 other == Name.key .utf16 archive.name).isSome :=
    List.find?_isSome.mpr ⟨archive.name, name_mem_names archive, by simp⟩
  obtain ⟨name, hname⟩ := Option.isSome_iff_exists.mp hsome
  refine ⟨name, ?_⟩
  rw [NameTable.resolve, originOf, NameTable.get?_ofName, hname]

/-- The offsets in the index lie in the archive, be they those of other files. -/
theorem isSome_positionOf?_storedOffset (hwritten : archive.Written streams deflate bytes kept)
    (hfits : bytes.length < 2 ^ 63) {file : StoredFile} (hmem : file ∈ archive.files) :
    (positionOf? (archive.storedOffset kept file)).isSome := by
  obtain ⟨one, hone, hoffset⟩ := hwritten.exists_storedOffset hmem
  rw [hoffset, positionOf?_of_written hwritten hfits hone]
  rfl

theorem spells_of_mem_below (h : archive.WellFormed) (stream : StreamId) (kept : List Kept)
    {record : IndexRecord}
    (hmem : record ∈ ((archive.planOf kept).index archive.root).below.labels) :
    (archive.originOf stream).names.Spells record.id := by
  obtain ⟨place, hplace, hid⟩ := (archive.planOf kept).exists_place_of_mem_below hmem
  rw [← hid]
  exact spells_of_mem_names h stream
    (List.mem_append_right _ (List.mem_map_of_mem hplace))

theorem spells_of_mem_entries (h : archive.WellFormed) (stream : StreamId) (kept : List Kept)
    {record : IndexRecord} (hmem : record ∈ ((archive.planOf kept).index archive.root).labels)
    {entry : IndexEntry} (hentry : entry ∈ record.files) :
    (archive.originOf stream).names.Spells entry.key := by
  obtain ⟨place, hplace, file, hfile, rfl⟩ :=
    (archive.planOf kept).exists_file_of_mem_files hmem hentry
  have hstored : (⟨place, file⟩ : StoredFile) ∈ archive.files := mem_files_iff.mpr ⟨hplace, hfile⟩
  have hname : file.name ∈ archive.files.map (·.entry.name) :=
    List.mem_map_of_mem (f := fun stored : StoredFile => stored.entry.name) hstored
  exact spells_of_mem_names h stream (List.mem_append_left _ hname)

/-- The reader finds all that it asks for in the UTF-16 index of a written archive. -/
theorem readable_of_written (h : archive.WellFormed)
    (hwritten : archive.Written streams deflate bytes kept) (hfits : bytes.length < 2 ^ 63)
    (stream : StreamId) :
    Readable (archive.originOf stream) ((archive.planOf kept).index archive.root) := by
  refine readable_of_keyed ((archive.planOf kept).keyed_subtree [] [] archive.root) ?_
    fun record hmem => spells_of_mem_below h stream kept hmem
  intro record hmem entry hentry
  refine ⟨spells_of_mem_entries h stream kept hmem hentry, ?_⟩
  obtain ⟨place, hplace, file, hfile, rfl⟩ :=
    (archive.planOf kept).exists_file_of_mem_files hmem hentry
  have hoffset : ((archive.planOf kept).entryAt place.location file).offset
      = archive.storedOffset kept ⟨place, file⟩ := rfl
  rw [hoffset]
  exact isSome_positionOf?_storedOffset hwritten hfits (mem_files_iff.mpr ⟨hplace, hfile⟩)

/-- An archive that is not too deep is read back, with what the reader goes to and no more. -/
theorem exists_copy_of_shallow (h : archive.WellFormed) (hsized : archive.Sized)
    (hshallow : archive.Shallow) (hlossless : Deflate.Lossless deflate)
    (hpayload : archive.namePayload deflate = .ok payload)
    (hwritten : archive.Written streams deflate (archive.layout kept payload) kept)
    (hfits : (archive.layout kept payload).length < 2 ^ 63) (stream : StreamId) :
    ∃ copy, read stream (archive.layout kept payload) = .ok copy ∧
      (∀ location, copy.Live location ↔ location ∈ visited (archive.originOf stream).names
        ((archive.planOf kept).index archive.root) []) ∧
      ∀ address, copy.Occupied address ↔ address ∈ visitedFiles (archive.originOf stream).names
        ((archive.planOf kept).index archive.root) [] := by
  obtain ⟨rootName, hroot⟩ := exists_resolve_root archive stream
  set start := new (Path.lastPart rootName)
  obtain ⟨filled, copy, hfiles, hdirectories, hgains⟩ :=
    readsAll_of_readable (readable_of_written h hwritten hfits stream) [] start (live_nil _) rfl
  refine ⟨copy, ?_, fun location => ?_, fun address => ?_⟩
  · rw [read_layout hsized hshallow hlossless hpayload kept hfits, hroot, Outcome.ok_bind]
    exact Outcome.bind_eq_ok_iff.mpr ⟨filled, hfiles, hdirectories⟩
  · -- A new archive has its root, which the reader goes to as well.
    rw [hgains.live, or_iff_right_of_imp]
    intro hlive
    cases location with
    | nil => exact ⟨[], _, .here _, rfl⟩
    | cons name names => cases hlive
  · rw [hgains.occupied, or_iff_right_of_imp]
    rintro ⟨files, hfiles, hkey⟩
    obtain ⟨_ | ⟨name, names⟩, key⟩ := address
    · obtain rfl := Option.some.inj hfiles
      cases hkey
    · cases hfiles

/-- Written bytes are read when no directory is too deep. -/
theorem exists_read_of_shallow (h : archive.WellFormed) (hsized : archive.Sized)
    (hshallow : archive.Shallow) (hlossless : Deflate.Lossless deflate)
    (hwrite : archive.write streams deflate = .ok bytes) (hfits : bytes.length < 2 ^ 63)
    (stream : StreamId) : ∃ copy, read stream bytes = .ok copy := by
  obtain ⟨kept, payload, hkeep, hpayload, rfl⟩ := (write_eq_ok_iff h).mp hwrite
  obtain ⟨copy, hread, -⟩ := exists_copy_of_shallow h hsized hshallow hlossless hpayload
    (written_of_keep h payload hkeep) hfits stream
  exact ⟨copy, hread⟩

/-- Written bytes are refused when a directory is too deep. -/
theorem exists_error_of_deep (h : archive.WellFormed) (hsized : archive.Sized)
    (hdeep : ¬ archive.Shallow) (hlossless : Deflate.Lossless deflate)
    (hwrite : archive.write streams deflate = .ok bytes) (hfits : bytes.length < 2 ^ 63)
    (stream : StreamId) :
    ∃ id, read stream bytes
      = .error (.corrupt (.depth id (Format.maxDepth + 1) (Format.maxDepth + 1))) := by
  obtain ⟨kept, payload, -, hpayload, rfl⟩ := (write_eq_ok_iff h).mp hwrite
  exact read_layout_of_deep hsized hdeep hlossless hpayload kept hfits stream

theorem shallow_of_read {copy : Archive} (h : archive.WellFormed) (hsized : archive.Sized)
    (hlossless : Deflate.Lossless deflate) (hwrite : archive.write streams deflate = .ok bytes)
    (hfits : bytes.length < 2 ^ 63) (hread : read stream bytes = .ok copy) : archive.Shallow := by
  by_contra hdeep
  obtain ⟨id, herror⟩ := exists_error_of_deep h hsized hdeep hlossless hwrite hfits stream
  rw [hread] at herror
  cases herror

end

/-! ## The main statement -/

/-- What the reader finds in the bytes of an archive before it makes directories of it: two
    indexes of one size, a table with a name for the root, and a first index all of whose keys
    lead to names and to records. -/
structure Decodes (stream : StreamId) (bytes : Bytes) (utf16 utf8 : Index) (table : NameTable) :
    Prop where
  payloads : ∃ names, readPayloads bytes = .ok ⟨utf16.encode, utf8.encode, names⟩ ∧
    NameTable.parse names = .ok table
  totals : utf8.totals = utf16.totals
  root : ∃ name, table.resolve utf16.label.id = .ok name
  readable : Readable { stream, names := table } utf16

/-- An archive that has been written is read back if and only if none of its directories is too
    deep, and otherwise the error is that a record is one level too deep.  Either way the totals
    agree, and all names and records are found.  The bytes are no more than signed 64-bit
    positions reach, as any that a machine can hold. -/
theorem read_iff_shallow {archive : Archive} {streams : Streams} {deflate : Bytes → Bytes}
    {bytes : Bytes} (h : Reachable archive) (hsized : archive.Sized)
    (hlossless : Deflate.Lossless deflate) (hwrite : archive.write streams deflate = .ok bytes)
    (hfits : bytes.length < 2 ^ 63) (stream : StreamId) :
    ((∃ copy, read stream bytes = .ok copy) ↔ archive.Shallow) ∧
      (¬ archive.Shallow → ∃ id, read stream bytes
        = .error (.corrupt (.depth id (Format.maxDepth + 1) (Format.maxDepth + 1)))) ∧
      ∃ utf16 utf8 table, Decodes stream bytes utf16 utf8 table := by
  have hformed := h.wellFormed
  refine ⟨⟨?_, ?_⟩, ?_, ?_⟩
  · rintro ⟨copy, hread⟩
    exact shallow_of_read hformed hsized hlossless hwrite hfits hread
  · intro hshallow
    exact exists_read_of_shallow hformed hsized hshallow hlossless hwrite hfits stream
  · intro hdeep
    exact exists_error_of_deep hformed hsized hdeep hlossless hwrite hfits stream
  · obtain ⟨kept, payload, hkeep, hpayload, rfl⟩ := (write_eq_ok_iff hformed).mp hwrite
    have hwritten := written_of_keep hformed payload hkeep
    exact ⟨archive.nestedIndex .utf16 (archive.offsetsOf kept),
      archive.nestedIndex .utf8 (archive.offsetsOf kept), (archive.originOf stream).names,
      ⟨_, readPayloads_layout hlossless kept hpayload hfits, NameTable.parse_encode hsized.units⟩,
      totals_index archive _ _ _, exists_resolve_root archive stream,
      readable_of_written hformed hwritten hfits stream⟩

/-- An archive with two directories whose names differ only in case. -/
def twins : Archive where
  root := ⟨{ id := rootId, name := "root" },
    .cons { id := 1, name := "A", files := [⟨"x", "x", .ofBytes [0x6F]⟩] } .nil
      (.cons { id := 2, name := "a", files := [⟨"y", "y", .ofBytes [0x74]⟩] } .nil .nil)⟩
  nextId := 3

/-- The archive with the first of the two only. -/
def firstTwin : Archive where
  root := ⟨{ id := rootId, name := "root" },
    .cons { id := 1, name := "A", files := [⟨"x", "x", .ofBytes [0x6F]⟩] } .nil .nil⟩
  nextId := 2

theorem addFile_firstTwin :
    (new "root").addFile rootId "A/x" (.ofBytes [0x6F]) = .ok (firstTwin, ⟨["A"], "x"⟩) := by rfl

theorem addFile_twins :
    firstTwin.addFile rootId "a/y" (.ofBytes [0x74]) = .ok (twins, ⟨["a"], "y"⟩) := by rfl

theorem reachable_twins : Reachable twins :=
  .addFile (.addFile (.new "root") addFile_firstTwin) addFile_twins

theorem sized_twins : twins.Sized where
  places := by decide +kernel
  units := by decide +kernel

theorem exists_write_twins :
    ∃ bytes, twins.write noStreams = .ok bytes ∧ bytes.length < 2 ^ 63 := by
  have hshort : (twins.write noStreams).toOption.any (·.length < 2 ^ 63) = true := by
    decide +kernel
  obtain ⟨bytes, hwrite, hfits⟩ := Outcome.exists_of_any hshort
  exact ⟨bytes, hwrite, of_decide_eq_true hfits⟩

/-- Names of one key do not keep an archive from being read. -/
theorem read_iff_shallow_twins :
    Name.key .utf16 "A" = Name.key .utf16 "a" ∧
      ∃ bytes copy, twins.write noStreams = .ok bytes ∧ read 0 bytes = .ok copy := by
  obtain ⟨bytes, hwrite, hfits⟩ := exists_write_twins
  obtain ⟨haccepts, -⟩ := read_iff_shallow reachable_twins sized_twins Deflate.lossless_store
    hwrite hfits 0
  obtain ⟨copy, hread⟩ := haccepts.mpr (by decide +kernel)
  exact ⟨by decide +kernel, bytes, copy, hwrite, hread⟩

end Archive

end HashArchive
