/-
  HashArchive.Proofs.Archive.Offsets

  Where the index entries of the files lead.  Offsets are looked up by the digest of a
  file's location as a text, so of several files with one text all entries lead to the
  record of the last (`offset_of_written`).  A merge that keeps duplicates can make two
  files with one text (`misplaced_clash`).
-/
import Mathlib
import HashArchive.Proofs.Archive.Written

namespace HashArchive

/-- The block that holds the index in an encoding. -/
def Encoding.block : Encoding → BlockKind
  | .utf16 => .utf16Index
  | .utf8 => .utf8Index

namespace Archive

/-- Where a file is, as one text: the path of its directory and its key. -/
def locationText (archive : Archive) (file : StoredFile) : String :=
  archive.directoryPath file.place.location ++ "/" ++ file.entry.key

/-- The offset that the index entries of a file hold. -/
def storedOffset (archive : Archive) (kept : List Kept) (file : StoredFile) : Int64 :=
  (offset? (archive.offsetsOf kept) (archive.fileKey file)).getD 0

/-- What the bytes of an archive hold: the records of its files in their order, each at its
    place, and two indexes, in which the entry of each file holds the file's offset. -/
structure Written (archive : Archive) (streams : Streams) (deflate : Bytes → Bytes)
    (bytes : Bytes) (kept : List Kept) : Prop where
  files : kept.map (·.file) = archive.files
  record : ∀ one ∈ kept, archive.fileRecord streams one.file deflate = .ok one.record
  found : ∀ one ∈ kept, one.record <+: bytes.drop (Format.dataStart + one.position)
  indexes : ∀ encoding : Encoding, ∃ index,
    archive.index encoding (archive.offsetsOf kept) = .ok index ∧
    encoding.block.encode index.encode <:+: bytes ∧
    (index.labels.map fun record => (record.id, record.files)).Perm
      (archive.places.map fun place =>
        (Name.key encoding place.name, Sorted.sort Index.entryBefore
          (place.tree.label.listing.map fun entry =>
            { key := Name.key encoding entry.name
              offset := archive.storedOffset kept ⟨place, entry⟩ })))
  positions : kept.Pairwise fun one other => one.position < other.position

variable {archive : Archive} {streams : Streams} {deflate : Bytes → Bytes} {bytes : Bytes}
  {kept : List Kept}

/-- A place in the data region is found in the whole archive. -/
theorem prefix_drop_layout {payload : Bytes} {position : Nat} {record : Bytes}
    (hlength : position ≤ (dataOf kept).length)
    (h : record <+: (dataOf kept).drop position) :
    record <+: (archive.layout kept payload).drop (Format.dataStart + position) := by
  set front := Format.magic ++ Bytes.ofInt64 (Int64.ofNat (dataOf kept).length) with hfront
  have hstart : front.length = Format.dataStart := rfl
  rw [layout]
  rw [← hfront, ← hstart, List.append_assoc, List.append_assoc, List.append_assoc,
    ← List.drop_drop, List.drop_left, List.drop_append_of_le_length hlength]
  exact h.trans (List.prefix_append _ _)

theorem written_of_keep (hformed : archive.WellFormed) (payload : Bytes)
    (h : archive.keep streams deflate 0 archive.files = .ok kept) :
    archive.Written streams deflate (archive.layout kept payload) kept where
  files := map_file_of_keep h
  record := fun one hmem => (record_of_mem_keep h hmem).1
  found := by
    intro one hmem
    obtain ⟨hrecord, -, hpre⟩ := record_of_mem_keep h hmem
    refine prefix_drop_layout ?_ hpre
    by_contra hpast
    rw [Nat.sub_zero, List.drop_eq_nil_of_le (by omega), List.prefix_nil] at hpre
    have hlength := length_pos_of_fileRecord hrecord
    rw [hpre] at hlength
    cases hlength
  indexes := by
    intro encoding
    refine ⟨archive.nestedIndex encoding (archive.offsetsOf kept), ?_, ?_, ?_⟩
    · exact (index_eq_ok_iff hformed).mpr ⟨isSome_offset?_of_keep h, rfl⟩
    · rw [layout]
      cases encoding with
      | utf16 =>
        rw [List.append_assoc (_ ++ BlockKind.encode _ _)]
        exact List.infix_append _ _ _
      | utf8 => exact List.infix_append _ _ _
    · have hperm := ((archive.plan encoding (archive.offsetsOf kept)).summary_index_perm
        archive.root).map fun summary => (summary.1, summary.2.1)
      rw [List.map_map, List.map_map] at hperm
      exact hperm
  positions := positions_of_keep h

variable (archive) in
/-- The offset of a file is where its own record begins, unless a later file has its key. -/
theorem storedOffset_of_split {before after : List Kept} {one : Kept}
    (hkept : kept = before ++ one :: after) :
    (archive.storedOffset kept one.file = Int64.ofNat one.position ∧
        ∀ other ∈ after, archive.fileKey other.file ≠ archive.fileKey one.file) ∨
      ∃ last ∈ after, archive.storedOffset kept one.file = Int64.ofNat last.position ∧
        archive.fileKey last.file = archive.fileKey one.file := by
  set pair : Kept → UInt64 × Nat := fun other => (archive.fileKey other.file, other.position)
  -- The lookup goes from the last file to the first, so it meets the later ones, then this one.
  have hfind : (archive.offsetsOf kept).reverse.find? (·.1 == archive.fileKey one.file)
      = ((after.reverse.find? ((·.1 == archive.fileKey one.file) ∘ pair)).or (some one)).map
          pair := by
    have hone : ((·.1 == archive.fileKey one.file) ∘ pair) one = true := by simp [pair]
    rw [offsetsOf, ← List.map_reverse, List.find?_map, hkept, List.reverse_append,
      List.reverse_cons, List.append_assoc, List.find?_append, List.singleton_append,
      List.find?_cons_of_pos hone]
  rw [storedOffset, offset?, Index.latest?, hfind]
  cases hlast : after.reverse.find? ((·.1 == archive.fileKey one.file) ∘ pair) with
  | none =>
    refine Or.inl ⟨rfl, ?_⟩
    intro other hother
    simpa [pair] using List.find?_eq_none.mp hlast other (List.mem_reverse.mpr hother)
  | some last =>
    refine Or.inr ⟨last, List.mem_reverse.mp (List.mem_of_find?_eq_some hlast), rfl, ?_⟩
    simpa [pair] using List.find?_some hlast

/-- The offset of a file is where the record of some file begins, its own or a later one's. -/
theorem Written.exists_storedOffset (h : archive.Written streams deflate bytes kept)
    {file : StoredFile} (hmem : file ∈ archive.files) :
    ∃ one ∈ kept, archive.storedOffset kept file = Int64.ofNat one.position := by
  rw [← h.files] at hmem
  obtain ⟨one, hone, rfl⟩ := List.mem_map.mp hmem
  obtain ⟨before, after, hkept⟩ := List.append_of_mem hone
  rcases storedOffset_of_split archive hkept with ⟨hoffset, -⟩ | ⟨last, hlast, hoffset, -⟩
  · exact ⟨one, hone, hoffset⟩
  · refine ⟨last, ?_, hoffset⟩
    rw [hkept]
    exact List.mem_append_right _ (List.mem_cons_of_mem _ hlast)

/-- Records begin inside the bytes. -/
theorem Written.position_lt (h : archive.Written streams deflate bytes kept) {one : Kept}
    (hmem : one ∈ kept) : Format.dataStart + one.position < bytes.length := by
  have hlength := length_pos_of_fileRecord (h.record one hmem)
  have hfound := (h.found one hmem).length_le
  rw [List.length_drop] at hfound
  omega

/-- Where locations as texts have keys of their own, the offset of a file is where the record of
    the last file begins that has its text. -/
theorem Written.exists_last (h : archive.Written streams deflate bytes kept)
    (hkeys : ∀ file ∈ archive.files, ∀ other ∈ archive.files,
      archive.fileKey file = archive.fileKey other →
        archive.locationText file = archive.locationText other)
    {before after : List Kept} {one : Kept} (hkept : kept = before ++ one :: after) :
    ∃ last ∈ one :: after, archive.storedOffset kept one.file = Int64.ofNat last.position ∧
      archive.locationText last.file = archive.locationText one.file ∧
      (last = one ↔
        ∀ other ∈ after, archive.locationText other.file ≠ archive.locationText one.file) := by
  have hfile : ∀ other ∈ one :: after, other.file ∈ archive.files := by
    intro other hother
    rw [← h.files, hkept]
    exact List.mem_map_of_mem (List.mem_append_right _ hother)
  rcases storedOffset_of_split archive hkept with
    ⟨hoffset, hnone⟩ | ⟨last, hlast, hoffset, hkey⟩
  · refine ⟨one, List.mem_cons_self, hoffset, rfl, iff_of_true rfl ?_⟩
    exact fun other hother heq => hnone other hother (congrArg Name.locationKey heq)
  · -- The later file has the same text, and its record begins further on.
    have hmem : last ∈ one :: after := List.mem_cons_of_mem _ hlast
    have hsame : archive.locationText last.file = archive.locationText one.file :=
      hkeys _ (hfile last hmem) _ (hfile one List.mem_cons_self) hkey
    have hpositions := h.positions
    rw [hkept, List.pairwise_append, List.pairwise_cons] at hpositions
    have hlt : one.position < last.position := hpositions.2.1.1 last hlast
    refine ⟨last, hmem, hoffset, hsame, iff_of_false ?_ fun hall => hall last hlast hsame⟩
    rintro rfl
    exact lt_irrefl _ hlt

/-- In bytes of a possible length an offset is the place of the record that it leads to, and no
    two records begin at one place. -/
theorem Written.toInt_storedOffset_iff (h : archive.Written streams deflate bytes kept)
    (hfits : bytes.length < 2 ^ 63) {before after : List Kept} {one last : Kept}
    (hkept : kept = before ++ one :: after) (hlast : last ∈ one :: after)
    (hoffset : archive.storedOffset kept one.file = Int64.ofNat last.position) :
    (archive.storedOffset kept one.file).toInt = one.position ↔ last = one := by
  have hmem : last ∈ kept := by
    rw [hkept]
    exact List.mem_append_right _ hlast
  have hlt := h.position_lt hmem
  have hint : (Int64.ofNat last.position).toInt = last.position :=
    Int64.toInt_ofNat_of_lt (by omega)
  have hpositions := h.positions
  rw [hkept, List.pairwise_append, List.pairwise_cons] at hpositions
  rw [hoffset, hint]
  rcases List.mem_cons.mp hlast with rfl | hafter
  · exact iff_of_true rfl rfl
  · have hlater : one.position < last.position := hpositions.2.1.1 last hafter
    refine iff_of_false (by omega) ?_
    rintro rfl
    exact lt_irrefl _ hlater

/-- Where locations as texts have keys of their own, the entries of a file lead to the record
    of the last file that has its text.  That is the file's own record if and only if no later
    file has the same text. -/
theorem offset_of_written (h : Reachable archive)
    (hwrite : archive.write streams deflate = .ok bytes)
    (hkeys : ∀ file ∈ archive.files, ∀ other ∈ archive.files,
      archive.fileKey file = archive.fileKey other →
        archive.locationText file = archive.locationText other) :
    ∃ kept, archive.Written streams deflate bytes kept ∧
      ∀ before one after, kept = before ++ one :: after →
        (∃ last ∈ one :: after, archive.storedOffset kept one.file = Int64.ofNat last.position ∧
          archive.locationText last.file = archive.locationText one.file ∧
          (last = one ↔
            ∀ other ∈ after, archive.locationText other.file ≠ archive.locationText one.file)) ∧
        (bytes.length < 2 ^ 63 →
          ((archive.storedOffset kept one.file).toInt = one.position ↔
            ∀ other ∈ after, archive.locationText other.file ≠ archive.locationText one.file)) := by
  obtain ⟨kept, payload, hkeep, -, rfl⟩ := (write_eq_ok_iff h.wellFormed).mp hwrite
  have hwritten := written_of_keep h.wellFormed payload hkeep
  refine ⟨kept, hwritten, fun before one after hkept => ?_⟩
  obtain ⟨last, hlast, hoffset, hsame, hown⟩ := hwritten.exists_last hkeys hkept
  refine ⟨⟨last, hlast, hoffset, hsame, hown⟩, fun hfits => ?_⟩
  exact (hwritten.toInt_storedOffset_iff hfits hkept hlast hoffset).trans hown

/-! ## Two files with one text -/

/-- An archive with a file `x` in a directory `a`, after an archive of the name `a` with a file
    `x` has been merged into it and duplicates were kept. -/
def clash : Archive where
  root := ⟨{ id := rootId, name := "root", files := [⟨"x", "a/x", .ofBytes [0x74]⟩] },
    .cons { id := 1, name := "a", files := [⟨"x", "x", .ofBytes [0x6F]⟩] } .nil .nil⟩
  nextId := 2
  policy := { keepDuplicates := true }

/-- No stream is open. -/
def noStreams : Streams := fun _ => { bytes := [] }

theorem reachable_clash : Reachable clash := by
  have hfirst : (new "root").addFile rootId "a/x" (.ofBytes [0x6F])
      = .ok ((((new "root").addDirectory [] "a").putFile ["a"] ⟨"x", "x", .ofBytes [0x6F]⟩),
        ⟨["a"], "x"⟩) := by rfl
  have hsource : (new "a").addFile rootId "x" (.ofBytes [0x74])
      = .ok ((new "a").putFile [] ⟨"x", "x", .ofBytes [0x74]⟩, ⟨[], "x"⟩) := by rfl
  exact .merge (.addFile (.new "root") hfirst) (.addFile (.new "a") hsource) noStreams true

theorem keys_clash : ∀ file ∈ clash.files, ∀ other ∈ clash.files,
    clash.fileKey file = clash.fileKey other →
      clash.locationText file = clash.locationText other := by
  decide +kernel

/-- The entries of the last file lead to its own record there. -/
theorem offset_of_last_clash :
    ∃ bytes kept, clash.write noStreams = .ok bytes ∧
      clash.Written noStreams Deflate.store bytes kept ∧
      ∀ before one, kept = before ++ [one] →
        clash.storedOffset kept one.file = Int64.ofNat one.position := by
  have hok : (clash.write noStreams).isOk = true := by decide +kernel
  obtain ⟨bytes, hwrite⟩ := Outcome.exists_of_isOk hok
  obtain ⟨kept, hwritten, hoffsets⟩ := offset_of_written reachable_clash hwrite keys_clash
  refine ⟨bytes, kept, hwrite, hwritten, ?_⟩
  intro before one hkept
  obtain ⟨⟨last, hlast, hoffset, -⟩, -⟩ := hoffsets before one [] hkept
  obtain rfl := List.mem_singleton.mp hlast
  exact hoffset

/-- The two files of `clash` have one text, so the entries of the first lead to the record of
    the second. -/
theorem misplaced_clash :
    Reachable clash ∧ ∃ bytes kept, clash.write noStreams = .ok bytes ∧
      clash.Written noStreams Deflate.store bytes kept ∧
      ∃ one ∈ kept, ∃ other ∈ kept, one.file ≠ other.file ∧
        clash.locationText one.file = clash.locationText other.file ∧
        (clash.storedOffset kept one.file).toInt ≠ one.position := by
  have hok : (clash.write noStreams).isOk = true := by decide +kernel
  obtain ⟨bytes, hwrite⟩ := Outcome.exists_of_isOk hok
  obtain ⟨kept, payload, hkeep, -, rfl⟩ := (write_eq_ok_iff reachable_clash.wellFormed).mp hwrite
  have hrun : clash.keep noStreams Deflate.store 0 clash.files = .ok
      [⟨⟨⟨[], clash.root⟩, ⟨"x", "a/x", .ofBytes [0x74]⟩⟩,
          RecordHeader.encode ⟨false, 1, 1⟩ ++ [0x74], 0⟩,
        ⟨⟨⟨["a"], ⟨⟨1, "a", [⟨"x", "x", .ofBytes [0x6F]⟩]⟩, .nil⟩⟩, ⟨"x", "x", .ofBytes [0x6F]⟩⟩,
          RecordHeader.encode ⟨false, 1, 1⟩ ++ [0x6F], 17⟩] := by rfl
  refine ⟨reachable_clash, _, kept, hwrite,
    written_of_keep reachable_clash.wellFormed payload hkeep, ?_⟩
  obtain rfl := Except.ok.inj (hrun.symm.trans hkeep)
  refine ⟨_, List.mem_cons_self, _, List.mem_cons_of_mem _ List.mem_cons_self, ?_⟩
  decide +kernel

end Archive

end HashArchive
