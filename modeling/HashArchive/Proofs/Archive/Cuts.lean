/-
  HashArchive.Proofs.Archive.Cuts

  Bytes that are missing at the end of a written archive, and bytes that follow it.  Wherever
  the archive is cut, the reader says that there are too few bytes; and what follows the
  archive is not looked at, neither by the reader nor when the files are read later on
  (`read_cut_or_followed`).
-/
import Mathlib
import HashArchive.Proofs.Archive.Acceptance
import HashArchive.Proofs.Archive.Identity
import HashArchive.Proofs.Archive.Sources
import HashArchive.Proofs.Source.Detached

namespace HashArchive

/-! ## More bytes -/

theorem Bytes.slice?_of_prefix {bytes more slice : Bytes} (hmore : bytes <+: more)
    {start length : Nat} (h : bytes.slice? start length = some slice) :
    more.slice? start length = some slice := by
  obtain ⟨hslice, hlength⟩ := slice?_eq_some_iff.mp h
  exact slice?_eq_some_iff.mpr ⟨hslice.trans (hmore.drop start), hlength⟩

namespace LazyRef

variable {ref : LazyRef} {bytes more : Bytes} {header : RecordHeader}

theorem headerIn_of_prefix (hmore : bytes <+: more) (h : ref.headerIn bytes = .ok header) :
    ref.headerIn more = .ok header := by
  rw [headerIn_eq_headerAt, headerAt] at h ⊢
  cases hkept : ref.header? with
  | some kept => rwa [hkept] at h
  | none =>
    rw [hkept] at h
    dsimp only at h ⊢
    cases hfield : bytes.slice? ref.offset.toNat Format.headerLength with
    | none =>
      rw [hfield] at h
      cases h
    | some field =>
      rw [hfield] at h
      rwa [Bytes.slice?_of_prefix hmore hfield]

theorem storedIn_eq_ok_iff {stored : Bytes} : ref.storedIn bytes header = .ok stored ↔
    bytes.slice? ref.dataOffset.toNat header.storedSize.toNat = some stored := by
  rw [storedIn, Bytes.slice?_eq_ite]
  split
  · simp
  · simp

theorem storedIn_of_prefix (hmore : bytes <+: more) {stored : Bytes}
    (h : ref.storedIn bytes header = .ok stored) : ref.storedIn more header = .ok stored :=
  storedIn_eq_ok_iff.mpr (Bytes.slice?_of_prefix hmore (storedIn_eq_ok_iff.mp h))

end LazyRef

namespace Source

/-- What a source answers in some streams it answers in others as well. -/
structure KeepsIn (short long : Streams) (source : Source) : Prop where
  header : ∀ header, source.header short = .ok header → source.header long = .ok header
  stored : ∀ stored, source.stored short = .ok stored → source.stored long = .ok stored
  content : ∀ content, source.content short = .ok content → source.content long = .ok content

/-- A source answers the same in other streams, errors included. -/
structure SameIn (short long : Streams) (source : Source) : Prop where
  header : source.header long = source.header short
  stored : source.stored long = source.stored short
  content : source.content long = source.content short

variable {short long : Streams}

/-- More bytes at the end of a stream take no answer away. -/
theorem keepsIn_of_prefix {ref : LazyRef}
    (hmore : (short ref.stream).bytes <+: (long ref.stream).bytes) :
    (deferred ref).KeepsIn short long := by
  have hheader : ∀ header, (deferred ref).header short = .ok header →
      (deferred ref).header long = .ok header := by
    intro header h
    rw [header_deferred] at h ⊢
    exact LazyRef.headerIn_of_prefix hmore h
  have hstored : ∀ stored, (deferred ref).stored short = .ok stored →
      (deferred ref).stored long = .ok stored := by
    intro stored h
    rw [stored_deferred] at h ⊢
    obtain ⟨header, hfound, h⟩ := Outcome.bind_eq_ok_iff.mp h
    rw [LazyRef.headerIn_of_prefix hmore hfound, Outcome.ok_bind]
    exact LazyRef.storedIn_of_prefix hmore h
  refine ⟨hheader, hstored, fun content h => ?_⟩
  rw [content_eq] at h ⊢
  obtain ⟨header, hfound, h⟩ := Outcome.bind_eq_ok_iff.mp h
  obtain ⟨stored, hbytes, h⟩ := Outcome.bind_eq_ok_iff.mp h
  rw [hheader header hfound, Outcome.ok_bind, hstored stored hbytes, Outcome.ok_bind, h]

/-- A source whose bytes are all there answers the same when there are more. -/
theorem KeepsIn.sameIn {source : Source} (h : source.KeepsIn short long) {header : RecordHeader}
    {stored : Bytes} (hheader : source.header short = .ok header)
    (hstored : source.stored short = .ok stored) : source.SameIn short long := by
  have hheader' := h.header header hheader
  have hstored' := h.stored stored hstored
  refine ⟨hheader'.trans hheader.symm, hstored'.trans hstored.symm, ?_⟩
  rw [content_eq, content_eq, hheader, hheader', hstored, hstored']

end Source

namespace Archive

variable {archive : Archive} {streams : Streams} {deflate : Bytes → Bytes} {bytes payload : Bytes}
  {kept : List Kept} {stream : StreamId}

/-! ## Where the files of a written archive are read -/

/-- The source is at the place of a record. -/
def AtRecord (stream : StreamId) (kept : List Kept) (source : Source) : Prop :=
  ∃ one ∈ kept, source = .deferred
    { stream, offset := UInt64.ofNat (Format.dataStart + one.position) }

/-- An archive that is read from written bytes has each file at the place of a record. -/
theorem sourced_of_read_layout (hcounted : ∀ place ∈ archive.places, place.Counted)
    (hwritten : archive.Written streams deflate (archive.layout kept payload) kept)
    (hfits : (archive.layout kept payload).length < 2 ^ 63) {copy : Archive}
    (hread : read stream (archive.layout kept payload) = .ok copy) :
    copy.Sourced (AtRecord stream kept) := by
  refine Sourced.of_read (fun payloads index hpayloads hparse => ?_) hread
  -- The index that is read is the one that was written, or else it is refused.
  obtain rfl : (archive.planOf kept).index archive.root = index := by
    have hlayout := readPayloads_layout_append kept hfits []
    rw [List.append_nil, hpayloads] at hlayout
    have hutf16 : payloads.utf16 = (archive.nestedIndex .utf16 (archive.offsetsOf kept)).encode := by
      cases hnames : Metadata.unwrapNames payload with
      | error error =>
        rw [hnames] at hlayout
        cases hlayout
      | ok names =>
        rw [hnames] at hlayout
        rw [Except.ok.inj hlayout]
        rfl
    rw [hutf16] at hparse
    by_cases hshallow : archive.Shallow
    · rw [parse_index hcounted hshallow] at hparse
      exact Except.ok.inj hparse
    · obtain ⟨id, hdeep⟩ :=
        parse_index_of_deep hcounted hshallow .utf16 (archive.offsetsOf kept)
      rw [hdeep] at hparse
      cases hparse
  intro record hrecord entry hentry position hposition
  obtain ⟨place, hplace, file, hfile, rfl⟩ :=
    (archive.planOf kept).exists_file_of_mem_files hrecord hentry
  have hstored : (⟨place, file⟩ : StoredFile) ∈ archive.files := mem_files_iff.mpr ⟨hplace, hfile⟩
  obtain ⟨one, hone, hoffset⟩ := hwritten.exists_storedOffset hstored
  have hentryOffset : ((archive.planOf kept).entryAt place.location file).offset
      = archive.storedOffset kept ⟨place, file⟩ := rfl
  rw [hentryOffset, hoffset, positionOf?_of_written hwritten hfits hone] at hposition
  obtain rfl := Option.some.inj hposition
  exact ⟨one, hone, rfl⟩

/-- A source at the place of a record has the header and the stored bytes of the record. -/
theorem exists_stored_of_atRecord (hwritten : archive.Written streams deflate bytes kept)
    (hfits : bytes.length < 2 ^ 63) {source : Source} (h : AtRecord stream kept source)
    {opened : Streams} (hopened : (opened stream).bytes = bytes) :
    ∃ header data, source.header opened = .ok header ∧ source.stored opened = .ok data := by
  obtain ⟨one, hone, rfl⟩ := h
  obtain ⟨header, data, hrecord, hsize⟩ := exists_header_of_fileRecord (hwritten.record one hone)
  have hfound := hwritten.found one hone
  have hlt := hwritten.position_lt hone
  rw [hrecord, ← hopened] at hfound
  have haddress : Format.dataStart + one.position + Format.headerLength < 2 ^ 64 := by
    rw [Format.headerLength]
    omega
  exact ⟨header, data, stored_of_record hsize haddress hfound⟩

/-! ## Counts that a name table has room for -/

/-- Each different name takes twelve bytes or more. -/
theorem length_eraseDups_le_encode (names : List String) :
    12 * names.eraseDups.length ≤ (NameTable.encode names).length := by
  rw [NameTable.encode]
  induction names.eraseDups with
  | nil => rfl
  | cons name names ih =>
    have hname : 12 ≤ (NameRecord.encode name).length := by
      simp only [NameRecord.encode, Bytes.ofUInt64, List.length_append, Bytes.length_ofNat]
      omega
    rw [List.flatMap_cons, List.length_append, List.length_cons]
    omega

/-- The subdirectories of a directory have names of their own, so an archive whose name table fits
    its size field has no more of them in one directory than an index can count. -/
theorem length_trees_lt_of_namePayload (h : archive.WellFormed)
    (hpayload : archive.namePayload deflate = .ok payload) {place : Place}
    (hmem : place ∈ archive.places) : place.tree.below.trees.length < 2 ^ 31 := by
  have hfound : archive.root.descend? place.location = some place.tree := (mem_places_iff h).mp hmem
  have hnodup := (Tree.ordered_of_descend? h.ordered hfound).nodup_names
  have hnames : place.tree.below.names ⊆ archive.names.eraseDups := by
    intro name hname
    obtain ⟨tree, htree, rfl⟩ := List.mem_map.mp hname
    have hchild : archive.root.descend? (place.location ++ [tree.label.name]) = some tree := by
      rw [Tree.descend?_append, hfound, Option.bind_some, Tree.descend?_cons,
        Forest.child?_of_mem_trees hnodup htree]
      rfl
    have hbelow : (⟨place.location ++ [tree.label.name], tree⟩ : Place) ∈ archive.places :=
      (mem_places_iff h).mpr hchild
    rcases List.mem_cons.mp hbelow with heq | hbelow
    · exact absurd (congrArg Place.location heq) (List.append_ne_nil_of_right_ne_nil _ nofun)
    · exact List.mem_eraseDups.mpr (name_mem_names_of_mem_places hbelow)
  have hcount := (hnodup.subperm hnames).length_le
  obtain ⟨contentSize, _, hsize, -⟩ := exists_wrapNames_of_namePayload hpayload
  have hroom := length_eraseDups_le_encode archive.names
  have hfits := contentSize.toNat_lt
  rw [Forest.names, List.length_map] at hcount
  omega

/-! ## The main statement -/

/-- Reading the front of a written archive fails for want of bytes, wherever the archive is
    cut; reading it with any bytes behind it comes to the same, and so does reading the files
    then.  For the files no directory is to hold more of them than the index can count, since
    the reader would take entries for records otherwise; without that, at least no answer is
    lost.  The archive's bytes are no more than signed 64-bit positions reach, as any that a
    machine can hold. -/
theorem read_cut_or_followed (h : Reachable archive)
    (hwrite : archive.write streams deflate = .ok bytes) (hfits : bytes.length < 2 ^ 63)
    (stream : StreamId) :
    (∀ cut < bytes.length, ∃ error, read stream (bytes.take cut) = .error error ∧
      error.EndsEarly) ∧
    (∀ rest, read stream (bytes ++ rest) = read stream bytes) ∧
    ∀ rest copy, read stream (bytes ++ rest) = .ok copy → ∀ file ∈ copy.files,
      ∀ short long : Streams, (short stream).bytes = bytes → (long stream).bytes = bytes ++ rest →
        file.entry.source.KeepsIn short long ∧
        ((∀ place ∈ archive.places, place.tree.label.files.length < 2 ^ 31) →
          file.entry.source.SameIn short long) := by
  obtain ⟨kept, payload, hkeep, hpayload, rfl⟩ := (write_eq_ok_iff h.wellFormed).mp hwrite
  have hwritten := written_of_keep h.wellFormed payload hkeep
  have hsame : ∀ rest, read stream (archive.layout kept payload ++ rest)
      = read stream (archive.layout kept payload) := by
    intro rest
    have hlayout := readPayloads_layout_append kept hfits []
    rw [List.append_nil] at hlayout
    rw [read, read, readParts, readParts, readPayloads_layout_append kept hfits, hlayout]
  refine ⟨fun cut hcut => ?_, hsame, fun rest copy hread file hmem short long hshort hlong => ?_⟩
  · obtain ⟨error, herror, hends⟩ := endsEarly_readPayloads_take kept hfits hcut
    refine ⟨error, ?_, hends⟩
    rw [read, readParts, herror, Outcome.error_bind, Outcome.error_bind]
  · rw [hsame] at hread
    -- Every file that is read stays in the stream, whatever the index says.
    have hdeferred : copy.Sourced fun source =>
        ∃ offset, source = .deferred { stream, offset } :=
      Sourced.of_read (fun _ _ _ _ _ _ _ _ position _ => ⟨UInt64.ofNat position, rfl⟩) hread
    obtain ⟨offset, hsource⟩ := hdeferred.of_mem_files hmem
    have hmore : (short stream).bytes <+: (long stream).bytes := by
      rw [hshort, hlong]
      exact List.prefix_append _ _
    have hkeeps : file.entry.source.KeepsIn short long := by
      rw [hsource]
      exact Source.keepsIn_of_prefix hmore
    refine ⟨hkeeps, fun hfiles => ?_⟩
    have hcounted : ∀ place ∈ archive.places, place.Counted := fun place hplace =>
      ⟨length_trees_lt_of_namePayload h.wellFormed hpayload hplace, hfiles place hplace⟩
    have hrecord := (sourced_of_read_layout hcounted hwritten hfits hread).of_mem_files hmem
    obtain ⟨header, data, hheader, hstored⟩ :=
      exists_stored_of_atRecord hwritten hfits hrecord hshort
    exact hkeeps.sameIn hheader hstored

theorem read_cut_or_followed_twins :
    ∃ bytes copy, twins.write noStreams = .ok bytes ∧
      (∃ error, read 0 bytes.dropLast = .error error ∧ error.EndsEarly) ∧
      read 0 (bytes ++ [0x2A]) = .ok copy ∧
      ∀ file ∈ copy.files, file.entry.source.content (fun _ => { bytes := bytes ++ [0x2A] })
        = file.entry.source.content fun _ => { bytes } := by
  obtain ⟨bytes, hwrite, hfits⟩ := exists_write_twins
  obtain ⟨copy, hread⟩ := exists_read_of_shallow reachable_twins.wellFormed sized_twins
    (by decide +kernel) Deflate.lossless_store hwrite hfits 0
  obtain ⟨hcut, hsame, hfiles⟩ := read_cut_or_followed reachable_twins hwrite hfits 0
  have hpos : 0 < bytes.length := by
    refine List.length_pos_iff.mpr fun hnil => ?_
    rw [hnil] at hread
    cases hread
  have hlast := hcut (bytes.length - 1) (by omega)
  rw [← List.dropLast_eq_take] at hlast
  refine ⟨bytes, copy, hwrite, hlast, (hsame _).trans hread, fun file hmem => ?_⟩
  exact ((hfiles [0x2A] copy ((hsame _).trans hread) file hmem _ _ rfl rfl).2
    fun place hplace => (sized_twins.places place hplace).files).content

end Archive

end HashArchive
