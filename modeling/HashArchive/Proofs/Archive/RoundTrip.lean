/-
  HashArchive.Proofs.Archive.RoundTrip

  A written archive is read back.  What has to be asked of the archive is that its names and
  locations can be told apart by their digests and that its numbers fit their fields
  (`Portable`); then the copy has the same directories and files, and each file the same
  content (`read_write`).
-/
import Mathlib
import HashArchive.Proofs.Archive.Decoding
import HashArchive.Proofs.Archive.Populate
import HashArchive.Proofs.Archive.Texts

namespace HashArchive.Archive

/-- What an archive needs so that it can be read back once it has been written: every file is
    keyed by its name, names and locations are told apart by their digests, and the root's
    name, the counts and the depths are such as the format can hold. -/
structure Portable (archive : Archive) : Prop where
  bare : ∀ file ∈ archive.files, file.entry.key = file.entry.name
  names : ∀ a ∈ archive.names, ∀ b ∈ archive.names,
    Name.key .utf16 a = Name.key .utf16 b → a = b
  keys : ∀ file ∈ archive.files, ∀ other ∈ archive.files,
    archive.fileKey file = archive.fileKey other →
      archive.locationText file = archive.locationText other
  root : ∀ c ∈ archive.name.toList, Path.isSeparator c = false
  places : ∀ place ∈ archive.places, place.Writable
  units : ∀ name ∈ archive.names, Name.Writable name

/-- A file that has been read back: its place and its name are those of the file that was
    written, it is stored as the settings ask for, and its content is the same, as long as the
    stream holds the bytes of the archive. -/
structure Restores (archive : Archive) (streams : Streams) (stream : StreamId) (bytes : Bytes)
    (file copied : StoredFile) : Prop where
  location : copied.place.location = file.place.location
  name : copied.entry.name = file.entry.name
  compressed : ∀ opened : Streams, (opened stream).bytes = bytes →
    (copied.entry.source.header opened).map (·.compressed)
      = .ok (archive.policy.compresses file.entry.name)
  content : ∀ opened : Streams, (opened stream).bytes = bytes →
    copied.entry.source.content opened = file.entry.source.content streams

/-- An archive that has been read back from the bytes of another. -/
structure Copies (archive : Archive) (streams : Streams) (stream : StreamId) (bytes : Bytes)
    (copy : Archive) : Prop where
  name : copy.name = archive.name
  locations : copy.places.map (·.location) = archive.places.map (·.location)
  directoryPaths : (copy.places.map fun place => copy.directoryPath place.location)
    = archive.places.map fun place => archive.directoryPath place.location
  relativePaths : copy.files.map (·.relativePath) = archive.files.map (·.relativePath)
  files : List.Forall₂ (archive.Restores streams stream bytes) archive.files copy.files

section RoundTrip

variable {archive : Archive} {streams : Streams} {deflate : Bytes → Bytes} {bytes : Bytes}
  {kept : List Kept} {stream : StreamId}

theorem Portable.sized (h : archive.Portable) : archive.Sized :=
  ⟨fun place hmem => (h.places place hmem).counted, h.units⟩

theorem Portable.shallow (h : archive.Portable) : archive.Shallow :=
  fun place hmem => (h.places place hmem).depth

/-- The offset of each file leads to its own record. -/
theorem exists_record (h : archive.WellFormed) (hportable : archive.Portable)
    (hwritten : archive.Written streams deflate bytes kept) {file : StoredFile}
    (hmem : file ∈ archive.files) :
    ∃ one ∈ kept, one.file = file ∧
      (archive.planOf kept).offsetAt file.place.location file.entry = Int64.ofNat one.position := by
  rw [← hwritten.files] at hmem
  obtain ⟨one, hone, rfl⟩ := List.mem_map.mp hmem
  exact ⟨one, hone, rfl,
    storedOffset_of_bare h hportable.root hportable.bare hportable.keys hwritten hone⟩

/-- The reader finds what it needs of the files of every directory. -/
theorem readsFiles_of_written (h : archive.WellFormed) (hportable : archive.Portable)
    (hwritten : archive.Written streams deflate bytes kept) (hfits : bytes.length < 2 ^ 63)
    {place : Place} (hmem : place ∈ archive.places) :
    ReadsFiles (archive.originOf stream) (archive.planOf kept) place.location
      place.tree.label where
  sound := h.sound _ (label_mem_of_mem_places hmem)
  bare := fun entry hentry => hportable.bare ⟨place, entry⟩ (mem_files_iff.mpr ⟨hmem, hentry⟩)
  names := by
    intro entry hentry
    have hfile : (⟨place, entry⟩ : StoredFile) ∈ archive.files := mem_files_iff.mpr ⟨hmem, hentry⟩
    exact NameTable.resolve_ofName hportable.names (name_mem_names_of_mem_files hfile)
  offsets := by
    intro entry hentry
    have hfile : (⟨place, entry⟩ : StoredFile) ∈ archive.files := mem_files_iff.mpr ⟨hmem, hentry⟩
    obtain ⟨one, hone, -, hoffset⟩ := exists_record h hportable hwritten hfile
    rw [hoffset, positionOf?_of_written hwritten hfits hone]
    rfl

/-- The reader finds what it needs of all directories. -/
theorem readsTree_of_written (h : archive.WellFormed) (hportable : archive.Portable)
    (hwritten : archive.Written streams deflate bytes kept) (hfits : bytes.length < 2 ^ 63) :
    ReadsTree (archive.originOf stream) (archive.planOf kept) [] archive.root where
  ordered := h.ordered
  files := by
    have hroot : (⟨[], archive.root⟩ : Place) ∈ archive.places := List.mem_cons_self
    exact readsFiles_of_written h hportable hwritten hfits hroot
  below := by
    intro place hmem
    have hplace : place ∈ archive.places := List.mem_cons_of_mem _ hmem
    -- Only the root may have a name that is not plain.
    refine ⟨plain_name_of_mem_below h hmem, ?_,
      readsFiles_of_written h hportable hwritten hfits hplace⟩
    exact NameTable.resolve_ofName hportable.names (name_mem_names_of_mem_places hmem)

/-- Reading the bytes of an archive makes a mirror of it. -/
theorem exists_mirror_of_written {payload : Bytes} (h : archive.WellFormed)
    (hportable : archive.Portable) (hlossless : Deflate.Lossless deflate)
    (hpayload : archive.namePayload deflate = .ok payload)
    (hwritten : archive.Written streams deflate (archive.layout kept payload) kept)
    (hfits : (archive.layout kept payload).length < 2 ^ 63) (stream : StreamId) :
    ∃ copy, read stream (archive.layout kept payload) = .ok copy ∧ copy.name = archive.name ∧
      archive.Mirrors (readBack (archive.originOf stream) (archive.planOf kept)) copy := by
  obtain ⟨filled, copy, hfiles, hdirectories, hname, hmirrors⟩ :=
    exists_mirror (readsTree_of_written h hportable hwritten hfits) archive.name
  refine ⟨copy, ?_, hname, hmirrors⟩
  have hroot : (archive.originOf stream).names.resolve (Name.key .utf16 archive.name)
      = .ok archive.name :=
    NameTable.resolve_ofName hportable.names (name_mem_names archive)
  rw [read_layout hportable.sized hportable.shallow hlossless hpayload kept hfits]
  refine Outcome.bind_eq_ok_iff.mpr ⟨archive.name, hroot, ?_⟩
  rw [Path.lastPart_of_no_separator hportable.root]
  exact Outcome.bind_eq_ok_iff.mpr ⟨filled, hfiles, hdirectories⟩

/-- A file of the mirror finds in the bytes what was stored for the file that was written. -/
theorem exists_stored_of_copied (h : archive.WellFormed) (hportable : archive.Portable)
    (hlossless : Deflate.Lossless deflate)
    (hwritten : archive.Written streams deflate bytes kept) (hfits : bytes.length < 2 ^ 63)
    {file copied : StoredFile} (hmem : file ∈ archive.files)
    (hentry : copied.entry = readBack (archive.originOf stream) (archive.planOf kept)
      file.place.location file.entry) :
    ∃ header data, storedForm streams archive.policy file.entry.name file.entry.source deflate
        = .ok (header, data) ∧
      ∀ opened : Streams, (opened stream).bytes = bytes →
        copied.entry.source.header opened = .ok header ∧
          copied.entry.source.stored opened = .ok data := by
  obtain ⟨one, hone, rfl, hoffset⟩ := exists_record h hportable hwritten hmem
  have hsource : copied.entry.source = .deferred
      { stream, offset := UInt64.ofNat (Format.dataStart + one.position) } := by
    rw [hentry, readBack, sourceAt, hoffset, positionOf?_of_written hwritten hfits hone]
    rfl
  obtain ⟨⟨header, data⟩, hform, hrecord⟩ := Outcome.bind_eq_ok_iff.mp (hwritten.record one hone)
  obtain ⟨-, -, hsize⟩ := content_of_storedForm hlossless hform
  have hfound := hwritten.found one hone
  rw [← Except.ok.inj hrecord] at hfound
  -- The header lies inside the bytes, so the sum for the place behind it does not wrap.
  have hend : Format.dataStart + one.position + Format.headerLength < 2 ^ 64 := by
    have hlength := hfound.length_le
    rw [List.length_append, RecordHeader.length_encode, List.length_drop] at hlength
    have hlt := hwritten.position_lt hone
    omega
  refine ⟨header, data, hform, fun opened hopened => ?_⟩
  rw [hsource]
  exact stored_of_record hsize hend (hopened ▸ hfound)

/-- A file of the mirror has the content of the file that was written. -/
theorem restores_of_copied (h : archive.WellFormed) (hportable : archive.Portable)
    (hlossless : Deflate.Lossless deflate)
    (hwritten : archive.Written streams deflate bytes kept) (hfits : bytes.length < 2 ^ 63)
    {file copied : StoredFile} (hmem : file ∈ archive.files)
    (hlocation : copied.place.location = file.place.location)
    (hentry : copied.entry = readBack (archive.originOf stream) (archive.planOf kept)
      file.place.location file.entry) :
    archive.Restores streams stream bytes file copied := by
  obtain ⟨header, data, hform, hreads⟩ :=
    exists_stored_of_copied h hportable hlossless hwritten hfits hmem hentry
  obtain ⟨hcontent, hcompressed, -⟩ := content_of_storedForm hlossless hform
  refine ⟨hlocation, by rw [hentry]; rfl, fun opened hopened => ?_, fun opened hopened => ?_⟩
  · rw [(hreads opened hopened).1, ← hcompressed]
    rfl
  · obtain ⟨hheader, hstored⟩ := hreads opened hopened
    rw [Source.content_eq, hheader, hstored, Outcome.ok_bind, Outcome.ok_bind, hcontent]

end RoundTrip

/-! ## The main statement -/

/-- A portable archive that can be written is read back from its bytes, and the copy has its
    name, its directories, its files and their contents. -/
theorem read_write {archive : Archive} {streams : Streams} {deflate : Bytes → Bytes}
    {bytes : Bytes} (h : Reachable archive) (hportable : archive.Portable)
    (hlossless : Deflate.Lossless deflate) (hwrite : archive.write streams deflate = .ok bytes)
    (hfits : bytes.length < 2 ^ 63) (stream : StreamId) :
    ∃ copy, read stream bytes = .ok copy ∧ archive.Copies streams stream bytes copy := by
  obtain ⟨kept, payload, hkeep, hpayload, rfl⟩ := (write_eq_ok_iff h.wellFormed).mp hwrite
  have hformed := h.wellFormed
  have hwritten := written_of_keep hformed payload hkeep
  obtain ⟨copy, hrun, hname, hmirrors⟩ :=
    exists_mirror_of_written hformed hportable hlossless hpayload hwritten hfits stream
  have hcopy : copy.WellFormed := (Reachable.read hrun).wellFormed
  have hlocations : copy.places.map (·.location) = archive.places.map (·.location) :=
    map_eq_of_forall₂ (fun hplace => hplace.1) (hmirrors.forall₂_places hformed hcopy)
  have hpaths : (copy.places.map fun place => copy.directoryPath place.location)
      = archive.places.map fun place => archive.directoryPath place.location := by
    have hmapped := congrArg (List.map archive.directoryPath) hlocations
    rw [List.map_map, List.map_map] at hmapped
    simp only [directoryPath, hname] at hmapped ⊢
    exact hmapped
  have hfiles : List.Forall₂ (archive.Restores streams stream (archive.layout kept payload))
      archive.files copy.files := by
    have hpairs := hmirrors.forall₂_files hformed hcopy fun _ _ _ => rfl
    refine List.Forall₂.imp ?_ ((List.forall₂_and_left _ _).mpr ⟨fun file hmem => hmem, hpairs⟩)
    rintro file copied ⟨hmem, hlocation, hentry⟩
    exact restores_of_copied hformed hportable hlossless hwritten hfits hmem hlocation hentry
  refine ⟨copy, hrun, hname, hlocations, hpaths, ?_, hfiles⟩
  refine map_eq_of_forall₂ (fun {file copied} hrestores => ?_) hfiles
  rw [StoredFile.relativePath, hrestores.location, hrestores.name, StoredFile.relativePath]

/-! ## A small case -/

/-- An archive with a file in the root, a packed one in a directory `a`, and an empty directory
    in that. -/
def branched : Archive where
  root := ⟨{ id := rootId, name := "root", files := [⟨"x", "x", .ofBytes [0x6F]⟩] },
    .cons { id := 1, name := "a", files := [⟨"y.txt", "y.txt", .ofBytes [0x74, 0x74]⟩] }
      (.cons { id := 2, name := "b" } .nil .nil) .nil⟩
  nextId := 3
  policy := { compressGlobs := ["*.txt"] }

theorem reachable_branched : Reachable branched := by
  set start : Archive := { new "root" with policy := { compressGlobs := ["*.txt"] } } with hstart
  have hfirst : start.addFile rootId "x" (.ofBytes [0x6F])
      = .ok (start.putFile [] ⟨"x", "x", .ofBytes [0x6F]⟩, ⟨[], "x"⟩) := by rfl
  have hbelow : (start.putFile [] ⟨"x", "x", .ofBytes [0x6F]⟩).ensureDirectory rootId "a/b"
      = .ok (((start.putFile [] ⟨"x", "x", .ofBytes [0x6F]⟩).addDirectory [] "a").addDirectory ["a"]
        "b", 2) := by rfl
  have hsecond : (((start.putFile [] ⟨"x", "x", .ofBytes [0x6F]⟩).addDirectory [] "a").addDirectory
      ["a"] "b").addFile rootId "a/y.txt" (.ofBytes [0x74, 0x74])
      = .ok (branched, ⟨["a"], "y.txt"⟩) := by rfl
  exact .addFile (.ensureDirectory (.addFile (.setPolicy (.new "root") _) hfirst) hbelow) hsecond

theorem portable_branched : branched.Portable where
  bare := by decide +kernel
  names := by decide +kernel
  keys := by decide +kernel
  root := by simp [branched, name, Path.isSeparator]
  places := by decide +kernel
  units := by decide +kernel

theorem read_write_branched :
    ∃ bytes copy, branched.write noStreams = .ok bytes ∧ read 0 bytes = .ok copy ∧
      branched.Copies noStreams 0 bytes copy := by
  have hok : (branched.write noStreams).isOk = true := by decide +kernel
  have hshort : (branched.write noStreams).toOption.all (·.length < 2 ^ 63) = true := by
    decide +kernel
  obtain ⟨bytes, hwrite⟩ := Outcome.exists_of_isOk hok
  rw [hwrite] at hshort
  obtain ⟨copy, hread, hcopies⟩ := read_write reachable_branched portable_branched
    Deflate.lossless_store hwrite (of_decide_eq_true hshort) 0
  exact ⟨bytes, copy, hwrite, hread, hcopies⟩

theorem exists_write_branched :
    ∃ bytes, branched.write noStreams = .ok bytes ∧ bytes.length < 2 ^ 63 := by
  have hshort : (branched.write noStreams).toOption.any (·.length < 2 ^ 63) = true := by
    decide +kernel
  obtain ⟨bytes, hwrite, hfits⟩ := Outcome.exists_of_any hshort
  exact ⟨bytes, hwrite, of_decide_eq_true hfits⟩

end HashArchive.Archive
