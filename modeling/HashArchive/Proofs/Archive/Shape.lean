/-
  HashArchive.Proofs.Archive.Shape

  The two indexes as pictures of the directories.  There is one record for each directory,
  below that of the directory above it, with the keys of what the directory holds in the
  order in which they are looked up (`Index.Shows`).  The orders differ from one encoding to
  the other, and nothing else does (`index_shows`).
-/
import Mathlib
import HashArchive.Proofs.Archive.Acceptance

namespace HashArchive

namespace Index

/-! ## Indexes that show directories -/

/-- The record of a directory has its key and its depth and the keys of the directories above
    it, the nearest first.  It has an entry for each record below it, in the order of these
    records, and an entry for each file; the entries are in the order of their keys, and the
    distances go up. -/
structure RecordOf (encoding : Encoding) (rootName : String) (offsetAt : Location → Entry → Int64)
    (place : Place) (index : Index) : Prop where
  id : index.label.id = Name.key encoding place.name
  depth : index.label.depth = Int32.ofNat place.depth
  ancestors : index.label.ancestors
    = (rootName :: place.location).dropLast.reverse.map (Name.key encoding)
  directories : index.label.directories.map (·.key) = index.below.trees.map (·.label.id)
  directoryKeys : (index.label.directories.map (·.key)).Pairwise (· ≤ ·)
  distances : index.encode.length < 2 ^ 63 →
    (index.label.directories.map (·.offset)).Pairwise (· < ·)
  files : index.label.files.Perm (place.tree.label.files.map fun entry =>
    { key := Name.key encoding entry.name, offset := offsetAt place.location entry })
  fileKeys : (index.label.files.map (·.key)).Pairwise (· ≤ ·)

/-- The index shows the directories from one on down: its record is that of the directory, and
    the indexes below it show the subdirectories, one each. -/
inductive Shows (encoding : Encoding) (rootName : String) (offsetAt : Location → Entry → Int64) :
    Place → Index → Prop
  | mk {place : Place} {index : Index} {shown : List Index}
      (record : RecordOf encoding rootName offsetAt place index)
      (order : shown.Perm index.below.trees)
      (count : shown.length = place.tree.below.trees.length)
      (below : ∀ pair ∈ place.tree.below.trees.zip shown,
        Shows encoding rootName offsetAt
          ⟨place.location ++ [pair.1.label.name], pair.1⟩ pair.2) :
      Shows encoding rootName offsetAt place index

/-- Two indexes have the shape of a tree of directories, whatever the order of the siblings in
    each is, and the same offsets for the files of each directory. -/
inductive Alike : Tree Directory → Index → Index → Prop
  | mk {tree : Tree Directory} {index other : Index} {shown otherShown : List Index}
      (order : shown.Perm index.below.trees) (otherOrder : otherShown.Perm other.below.trees)
      (count : shown.length = tree.below.trees.length)
      (otherCount : otherShown.length = tree.below.trees.length)
      (offsets : (index.label.files.map (·.offset)).Perm (other.label.files.map (·.offset)))
      (below : ∀ triple ∈ tree.below.trees.zip (shown.zip otherShown),
        Alike triple.1 triple.2.1 triple.2.2) : Alike tree index other

/-- The offsets of the files do not depend on the encoding. -/
theorem RecordOf.offsets_perm {encoding : Encoding} {rootName : String}
    {offsetAt : Location → Entry → Int64} {place : Place} {index : Index}
    (h : RecordOf encoding rootName offsetAt place index) :
    (index.label.files.map (·.offset)).Perm
      (place.tree.label.files.map (offsetAt place.location)) := by
  have hoffsets := h.files.map (·.offset)
  rwa [List.map_map] at hoffsets

/-- Indexes that show the same directories are alike. -/
theorem alike_of_shows {encoding otherEncoding : Encoding} {rootName : String}
    {offsetAt : Location → Entry → Int64} {place : Place} {index other : Index}
    (h : Shows encoding rootName offsetAt place index)
    (hother : Shows otherEncoding rootName offsetAt place other) :
    Alike place.tree index other := by
  induction h generalizing other with
  | @mk place index shown record order count below ih =>
    cases hother with
    | @mk _ _ otherShown otherRecord otherOrder otherCount otherBelow =>
      refine .mk order otherOrder count otherCount
        (record.offsets_perm.trans otherRecord.offsets_perm.symm) ?_
      rintro ⟨child, left, right⟩ hmem
      -- The three stand at one place in their lists.
      obtain ⟨i, hi⟩ := List.mem_iff_getElem?.mp hmem
      obtain ⟨hchild, hboth⟩ := List.getElem?_zip_eq_some.mp hi
      obtain ⟨hleft, hright⟩ := List.getElem?_zip_eq_some.mp hboth
      have hpair : (child, left) ∈ place.tree.below.trees.zip shown :=
        List.mem_iff_getElem?.mpr ⟨i, List.getElem?_zip_eq_some.mpr ⟨hchild, hleft⟩⟩
      have hotherPair : (child, right) ∈ place.tree.below.trees.zip otherShown :=
        List.mem_iff_getElem?.mpr ⟨i, List.getElem?_zip_eq_some.mpr ⟨hchild, hright⟩⟩
      exact ih _ hpair (otherBelow _ hotherPair)

/-! ## Distances -/

/-- The distances in entries that lead to records one after another go up, and stay below the
    end of the records. -/
theorem exists_distances_directoryEntries (offset : Nat) (forest : Forest IndexRecord) :
    ∃ distances : List Nat,
      (directoryEntries offset forest).map (·.offset) = distances.map Int64.ofNat ∧
      distances.Pairwise (· < ·) ∧
      ∀ distance ∈ distances, offset ≤ distance ∧ distance < offset + lengthOf forest := by
  induction forest generalizing offset with
  | nil => exact ⟨[], rfl, List.Pairwise.nil, by simp⟩
  | cons record below rest _ ih =>
    obtain ⟨distances, hoffsets, hascending, hbounds⟩ :=
      ih (offset + record.length + lengthOf below)
    have hpos : 0 < record.length := by
      rw [IndexRecord.length, Format.recordLength]
      omega
    refine ⟨offset :: distances, ?_, List.pairwise_cons.mpr ⟨fun distance hmem => ?_, hascending⟩,
      fun distance hmem => ?_⟩
    · rw [directoryEntries, List.map_cons, hoffsets, List.map_cons]
    · have := (hbounds distance hmem).1
      omega
    · rw [lengthOf]
      rcases List.mem_cons.mp hmem with rfl | hmem
      · omega
      · have := hbounds distance hmem
        omega

/-- Numbers below the sign bit keep their order as signed numbers. -/
theorem pairwise_map_ofNat {numbers : List Nat} (hascending : numbers.Pairwise (· < ·))
    (hfits : ∀ n ∈ numbers, n < 2 ^ 63) : (numbers.map Int64.ofNat).Pairwise (· < ·) := by
  rw [List.pairwise_map]
  refine hascending.imp_of_mem fun {a b} ha hb hlt => ?_
  rw [Int64.lt_iff_toInt_lt, Int64.toInt_ofNat_of_lt (hfits a ha),
    Int64.toInt_ofNat_of_lt (hfits b hb)]
  exact_mod_cast hlt

namespace Plan

variable (plan : Plan)

/-! ## The index of a tree -/

/-- The record that is made for a directory is the record of it. -/
theorem recordOf_subtree {location above : Location} {tree : Tree Directory}
    (hpath : plan.rootName :: location = above ++ [tree.label.name]) :
    RecordOf plan.encoding plan.rootName plan.offsetAt ⟨location, tree⟩
      (plan.subtree location (above.reverse.map (Name.key plan.encoding)) tree) := by
  set ancestors := above.reverse.map (Name.key plan.encoding) with hancestors
  set records := plan.forest location (Name.key plan.encoding tree.label.name :: ancestors)
    tree.below with hrecords
  have hlength : above.length = location.length := by
    simpa using (congrArg List.length hpath).symm
  constructor
  · rfl
  · show Int32.ofNat ancestors.length = Int32.ofNat location.length
    rw [hancestors, List.length_map, List.length_reverse, hlength]
  · show ancestors = _
    rw [hpath, List.dropLast_concat]
  · exact map_key_directoryEntries _ records
  · rw [map_key_directories_subtree, List.pairwise_map]
    exact Sorted.pairwise_sort_key (fun child : Tree Directory =>
      Name.key plan.encoding child.label.name) tree.below.trees
  · intro hfits
    obtain ⟨distances, hoffsets, hascending, hbounds⟩ := exists_distances_directoryEntries
      (Format.recordLength (records.trees.length + tree.label.files.length) ancestors.length)
      records
    rw [length_encode, subtree, length_record] at hfits
    show ((directoryEntries _ records).map (·.offset)).Pairwise (· < ·)
    rw [hoffsets]
    refine pairwise_map_ofNat hascending fun distance hmem => ?_
    exact lt_trans (hbounds distance hmem).2 hfits
  · show (plan.entriesAt location tree.label).Perm _
    rw [entriesAt_eq]
    exact (plan.fileOrder_perm location tree.label).map (plan.entryAt location)
  · show ((plan.entriesAt location tree.label).map (·.key)).Pairwise (· ≤ ·)
    rw [List.pairwise_map]
    exact Sorted.pairwise_sort_key (fun entry : IndexEntry => entry.key) _

/-- The index of a tree of directories shows them. -/
theorem shows_subtree {location above : Location} {tree : Tree Directory}
    (hpath : plan.rootName :: location = above ++ [tree.label.name]) :
    Shows plan.encoding plan.rootName plan.offsetAt ⟨location, tree⟩
      (plan.subtree location (above.reverse.map (Name.key plan.encoding)) tree) := by
  induction tree using Tree.induct_below generalizing location above with
  | h tree ih =>
    set inner := Name.key plan.encoding tree.label.name
      :: above.reverse.map (Name.key plan.encoding) with hinner
    have htrees := plan.trees_forest_eq location inner tree.below
    -- The directory comes to those above its subdirectories.
    have habove : inner = (plan.rootName :: location).reverse.map (Name.key plan.encoding) := by
      rw [hpath, List.reverse_append, List.map_append]
      rfl
    have horder : (tree.below.trees.map fun child =>
        plan.subtree (location ++ [child.label.name]) inner child).Perm
          (plan.forest location inner tree.below).trees := by
      rw [htrees]
      exact (plan.byKey_perm tree.below).symm.map _
    refine .mk (plan.recordOf_subtree hpath) horder (List.length_map _) ?_
    rintro ⟨child, shown⟩ hmem
    obtain ⟨i, hi⟩ := List.mem_iff_getElem?.mp hmem
    obtain ⟨hchild, hshown⟩ := List.getElem?_zip_eq_some.mp hi
    dsimp only at hchild hshown ⊢
    rw [List.getElem?_map, hchild, Option.map_some, Option.some.injEq] at hshown
    rw [← hshown, habove]
    exact ih child (List.mem_of_getElem? hchild) (List.cons_append).symm

end Plan

end Index

namespace Archive

variable {archive : Archive} {streams : Streams} {deflate : Bytes → Bytes}
  {offsets : List (UInt64 × Nat)}

/-- The offset that is put down for a file of a directory. -/
def offsetIn (archive : Archive) (offsets : List (UInt64 × Nat)) (location : Location)
    (entry : Entry) : Int64 :=
  (offset? offsets
    (Name.locationKey (archive.directoryPath location ++ "/" ++ entry.key))).getD 0

theorem totals_nestedIndex (archive : Archive) (encoding : Encoding)
    (offsets : List (UInt64 × Nat)) :
    (archive.nestedIndex encoding offsets).totals
      = (archive.places.length, archive.files.length) := by
  rw [length_files]
  exact (archive.plan encoding offsets).totals_index archive.root

theorem shows_nestedIndex (archive : Archive) (encoding : Encoding)
    (offsets : List (UInt64 × Nat)) :
    Index.Shows encoding archive.name (archive.offsetIn offsets) ⟨[], archive.root⟩
      (archive.nestedIndex encoding offsets) := by
  -- Nothing is above the root.
  have hpath : archive.name :: ([] : Location) = [] ++ [archive.root.label.name] := rfl
  exact (archive.plan encoding offsets).shows_subtree hpath

/-- The records of files put down an offset for each of them. -/
theorem map_fst_of_writeRecords {files : List StoredFile} {output after : Stream}
    (h : archive.writeRecords streams deflate files output = .ok (after, offsets)) :
    offsets.map (·.1) = files.map archive.fileKey := by
  induction files generalizing output after offsets with
  | nil =>
    obtain ⟨-, rfl⟩ := Prod.mk.inj (Except.ok.inj h)
    rfl
  | cons file files ih =>
    obtain ⟨record, -, h⟩ := Outcome.bind_eq_ok_iff.mp h
    obtain ⟨⟨last, others⟩, hothers, h⟩ := Outcome.bind_eq_ok_iff.mp h
    obtain ⟨-, rfl⟩ := Prod.mk.inj (Except.ok.inj h)
    rw [List.map_cons, ih hothers, List.map_cons]

theorem isSome_offset?_of_writeRecords {output after : Stream}
    (h : archive.writeRecords streams deflate archive.files output = .ok (after, offsets)) :
    ∀ file ∈ archive.files, (offset? offsets (archive.fileKey file)).isSome := by
  intro file hmem
  rw [offset?, Option.isSome_map, Index.isSome_latest?_iff, map_fst_of_writeRecords h]
  exact List.mem_map_of_mem hmem

/-- Once the records of the files are written, both indexes can be built.  Each shows all
    directories of the archive, with the offsets that are put down for the files; so apart
    from the order of siblings the two have one shape, the files of each directory have the
    same offsets in both, and both have as many records as there are directories and as many
    file entries as there are files. -/
theorem index_shows (h : Reachable archive) {output after : Stream}
    (hrecords : archive.writeRecords streams deflate archive.files output
      = .ok (after, offsets)) :
    ∃ utf16 utf8, archive.index .utf16 offsets = .ok utf16 ∧
      archive.index .utf8 offsets = .ok utf8 ∧
      Index.Shows .utf16 archive.name (archive.offsetIn offsets) ⟨[], archive.root⟩ utf16 ∧
      Index.Shows .utf8 archive.name (archive.offsetIn offsets) ⟨[], archive.root⟩ utf8 ∧
      (∀ file ∈ archive.files, offset? offsets (archive.fileKey file)
        = some (archive.offsetIn offsets file.place.location file.entry)) ∧
      Index.Alike archive.root utf16 utf8 ∧
      utf16.totals = (archive.places.length, archive.files.length) ∧
      utf8.totals = (archive.places.length, archive.files.length) := by
  have hsome := isSome_offset?_of_writeRecords hrecords
  have hshows := fun encoding => shows_nestedIndex archive encoding offsets
  refine ⟨archive.nestedIndex .utf16 offsets, archive.nestedIndex .utf8 offsets,
    (index_eq_ok_iff h.wellFormed).mpr ⟨hsome, rfl⟩,
    (index_eq_ok_iff h.wellFormed).mpr ⟨hsome, rfl⟩, hshows .utf16, hshows .utf8,
    fun file hmem => ?_, Index.alike_of_shows (hshows .utf16) (hshows .utf8),
    totals_nestedIndex archive .utf16 offsets, totals_nestedIndex archive .utf8 offsets⟩
  obtain ⟨offset, hoffset⟩ := Option.isSome_iff_exists.mp (hsome file hmem)
  have hkey : archive.offsetIn offsets file.place.location file.entry
      = (offset? offsets (archive.fileKey file)).getD 0 := rfl
  rw [hkey, hoffset, Option.getD_some]

/-- The indexes of two directories whose names have one key. -/
theorem index_shows_twins :
    ∃ after offsets utf16 utf8,
      twins.writeRecords noStreams Deflate.store twins.files ({ bytes := [] } : Stream)
        = .ok (after, offsets) ∧
      twins.index .utf16 offsets = .ok utf16 ∧ twins.index .utf8 offsets = .ok utf8 ∧
      Index.Alike twins.root utf16 utf8 ∧ utf16.totals = (3, 2) := by
  have hok : (twins.writeRecords noStreams Deflate.store twins.files ({ bytes := [] } : Stream)).isOk
      = true := by decide +kernel
  obtain ⟨⟨after, offsets⟩, hrecords⟩ := Outcome.exists_of_isOk hok
  obtain ⟨utf16, utf8, hutf16, hutf8, -, -, -, halike, htotals, -⟩ :=
    index_shows reachable_twins hrecords
  exact ⟨after, offsets, utf16, utf8, hrecords, hutf16, hutf8, halike, htotals⟩

end Archive

end HashArchive
