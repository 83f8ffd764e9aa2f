/-
  HashArchive.Proofs.Archive.Decoding

  What the reader takes from the bytes of a written archive before it makes directories: the
  indexes and the name table that were written (`read_layout`).  It stops before that when a
  directory is too deep (`read_layout_of_deep`), which the writer does not look at.
-/
import Mathlib
import HashArchive.Proofs.Archive.Offsets
import HashArchive.Proofs.Archive.Payloads
import HashArchive.Proofs.Index.RoundTrip
import HashArchive.Proofs.NameTable

namespace HashArchive.Archive

/-- The numbers of subdirectories and files and the lengths of the names fit their fields. -/
structure Sized (archive : Archive) : Prop where
  places : ∀ place ∈ archive.places, place.Counted
  units : ∀ name ∈ archive.names, Name.Writable name

/-- No directory is deeper than the reader goes. -/
def Shallow (archive : Archive) : Prop := ∀ place ∈ archive.places, place.depth ≤ Format.maxDepth

instance decidableShallow (archive : Archive) : Decidable archive.Shallow :=
  inferInstanceAs (Decidable (∀ place ∈ archive.places, _))

/-- The plan of the index that is read. -/
def planOf (archive : Archive) (kept : List Kept) : Index.Plan :=
  archive.plan .utf16 (archive.offsetsOf kept)

/-- What the archive is read from. -/
def originOf (archive : Archive) (stream : StreamId) : Origin :=
  { stream, names := ⟨archive.names.eraseDups.map NameRecord.ofName⟩ }

theorem name_mem_names_of_mem_files {archive : Archive} {file : StoredFile}
    (h : file ∈ archive.files) : file.entry.name ∈ archive.names :=
  List.mem_append_left _ (List.mem_append_left _ (List.mem_map_of_mem h))

theorem name_mem_names_of_mem_places {archive : Archive} {place : Place}
    (h : place ∈ archive.root.below.places []) : place.name ∈ archive.names :=
  List.mem_append_left _ (List.mem_append_right _ (List.mem_map_of_mem h))

theorem name_mem_names (archive : Archive) : archive.name ∈ archive.names :=
  List.mem_append_right _ (List.mem_singleton_self _)

section

variable {archive : Archive} {deflate : Bytes → Bytes} {payload : Bytes}

theorem positionOf?_of_written {streams : Streams} {bytes : Bytes} {kept : List Kept}
    (hwritten : archive.Written streams deflate bytes kept) (hfits : bytes.length < 2 ^ 63)
    {one : Kept} (hone : one ∈ kept) :
    positionOf? (Int64.ofNat one.position) = some (Format.dataStart + one.position) := by
  have hlt := hwritten.position_lt hone
  exact positionOf?_ofNat (by omega)

/-! ## The indexes -/

/-- The indexes of an archive that is not too deep are read back. -/
theorem parse_index (hcounted : ∀ place ∈ archive.places, place.Counted)
    (hshallow : archive.Shallow) (encoding : Encoding) (offsets : List (UInt64 × Nat)) :
    Index.parse (archive.nestedIndex encoding offsets).encode
      = .ok (archive.nestedIndex encoding offsets) := by
  set plan := archive.plan encoding offsets
  have hplaces : ∀ place ∈ archive.root.placesAt [], place.Writable := by
    intro place hmem
    obtain ⟨hdirectories, hfiles⟩ := hcounted place hmem
    exact ⟨hdirectories, hfiles, hshallow place hmem⟩
  have hformed := Index.wellFormed_of_fitsRoot (plan.fitsRoot_index archive.root)
    fun record hmem => plan.writable_index hplaces hmem
  have hparse := hformed.parse_append []
  rw [List.append_nil] at hparse
  exact hparse

/-- The indexes of an archive that is too deep are refused. -/
theorem parse_index_of_deep (hcounted : ∀ place ∈ archive.places, place.Counted)
    (hdeep : ¬ archive.Shallow) (encoding : Encoding) (offsets : List (UInt64 × Nat)) :
    ∃ id, Index.parse (archive.nestedIndex encoding offsets).encode
      = .error (.corrupt (.depth id (Format.maxDepth + 1) (Format.maxDepth + 1))) := by
  set plan := archive.plan encoding offsets
  have hrecord : ∃ record ∈ (plan.index archive.root).labels,
      Format.maxDepth < record.ancestors.length := by
    by_contra hnone
    refine hdeep (plan.shallow_index_iff.mp fun record hmem => not_lt.mp fun hlt => ?_)
    exact hnone ⟨record, hmem, hlt⟩
  obtain ⟨id, hparse⟩ := Index.parse_of_deep (plan.fitsRoot_index archive.root)
    (fun record hmem => plan.counted_index hcounted hmem) hrecord []
  rw [List.append_nil] at hparse
  exact ⟨id, hparse⟩

theorem totals_index (archive : Archive) (encoding other : Encoding)
    (offsets : List (UInt64 × Nat)) :
    (archive.nestedIndex encoding offsets).totals = (archive.nestedIndex other offsets).totals :=
  (Index.Plan.totals_index _ archive.root).trans (Index.Plan.totals_index _ archive.root).symm

/-! ## The whole -/

/-- Reading a written archive that is not too deep comes to making directories and files of its
    UTF-16 index and its names. -/
theorem read_layout (hsized : archive.Sized) (hshallow : archive.Shallow)
    (hlossless : Deflate.Lossless deflate) (hpayload : archive.namePayload deflate = .ok payload)
    (kept : List Kept) (hfits : (archive.layout kept payload).length < 2 ^ 63)
    (stream : StreamId) :
    read stream (archive.layout kept payload) = (do
      let rootName ← (archive.originOf stream).names.resolve (Name.key .utf16 archive.name)
      let filled ← (archive.originOf stream).addFiles [] (new (Path.lastPart rootName))
        ((archive.planOf kept).index archive.root).label.files
      (archive.originOf stream).addDirectories ((archive.planOf kept).index archive.root) [] filled
        ((archive.planOf kept).index archive.root).label.directories) := by
  have hpayloads := readPayloads_layout hlossless kept hpayload hfits
  have hnames := NameTable.parse_encode hsized.units
  -- Both indexes are read; they agree in their totals, since they are of one tree.
  have htotals := not_not_intro (totals_index archive .utf8 .utf16 (archive.offsetsOf kept))
  rw [read, readParts, hpayloads, Outcome.ok_bind]
  dsimp only
  rw [parse_index hsized.places hshallow, Outcome.ok_bind, parse_index hsized.places hshallow,
    Outcome.ok_bind, if_neg htotals, hnames, Outcome.ok_bind, bind_assoc]
  rfl

/-- Reading a written archive that is too deep fails at the first record that is. -/
theorem read_layout_of_deep (hsized : archive.Sized) (hdeep : ¬ archive.Shallow)
    (hlossless : Deflate.Lossless deflate) (hpayload : archive.namePayload deflate = .ok payload)
    (kept : List Kept) (hfits : (archive.layout kept payload).length < 2 ^ 63)
    (stream : StreamId) :
    ∃ id, read stream (archive.layout kept payload)
      = .error (.corrupt (.depth id (Format.maxDepth + 1) (Format.maxDepth + 1))) := by
  obtain ⟨id, hparse⟩ := parse_index_of_deep hsized.places hdeep .utf16 (archive.offsetsOf kept)
  refine ⟨id, ?_⟩
  rw [read, readParts, readPayloads_layout hlossless kept hpayload hfits, Outcome.ok_bind]
  dsimp only
  rw [hparse]
  rfl

end

end HashArchive.Archive
