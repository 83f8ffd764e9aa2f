/-
  HashArchive.Proofs.Index.RoundTrip

  An index whose records stand in their places is read back from its bytes
  (`Index.WellFormed.read_append`): their counts fit their fields, and none is too deep.
  Levels of the reader and depths of the records go together: the last level is the first
  depth that is refused.
-/
import Mathlib
import HashArchive.Proofs.Index.Layout
import HashArchive.Proofs.Reader

namespace HashArchive

namespace IndexRecord

/-- The record's counts fit their fields. -/
structure Counted (record : IndexRecord) : Prop where
  directories : record.directories.length < 2 ^ 31
  files : record.files.length < 2 ^ 31

/-- The record's counts fit their fields, and it is not too deep. -/
structure Writable (record : IndexRecord) : Prop extends record.Counted where
  depth : record.ancestors.length ≤ Format.maxDepth

/-- A record is refused alike for the depth that it has and for the one that is expected. -/
theorem refused_iff (expected : Nat) (depth : Int32) :
    (depth.toInt ≠ expected ∨ (Format.maxDepth : Int) < depth.toInt) ↔
      (depth.toInt ≠ expected ∨ Format.maxDepth < expected) := by
  by_cases h : depth.toInt = expected
  · rw [h, Nat.cast_lt]
  · exact iff_of_true (Or.inl h) (Or.inl h)

/-- Once the numbers at the front of a record have been read, its depth decides. -/
theorem read_front {record : IndexRecord} (h : record.Counted) (expected : Nat) (rest : Bytes) :
    read expected (record.encode ++ rest)
      = if record.depth.toInt ≠ expected ∨ Format.maxDepth < expected then
          .error (.corrupt (.depth record.id record.depth.toInt expected))
        else do
          let (directories, bytes) ← Reader.times IndexEntry.read record.directories.length
            (record.directories.flatMap IndexEntry.encode
              ++ (record.files.flatMap IndexEntry.encode
                ++ (record.ancestors.flatMap Bytes.ofUInt64 ++ rest)))
          let (files, bytes) ← Reader.times IndexEntry.read record.files.length bytes
          let (ancestors, bytes) ← Reader.times Reader.uint64 expected bytes
          return (⟨record.id, record.depth, directories, files, ancestors⟩, bytes) := by
  obtain ⟨id, depth, directories, files, ancestors⟩ := record
  obtain ⟨hdirectories, hfiles⟩ := h
  dsimp only at *
  rw [read, encode]
  dsimp only
  rw [List.flatMap_append]
  simp only [List.append_assoc]
  rw [Reader.exactly_append, Guarding.lift_eq, Outcome.ok_bind]
  dsimp only
  rw [if_neg (not_not_intro rfl), Reader.uint64_append, Guarding.lift_eq, Outcome.ok_bind]
  dsimp only
  rw [Reader.count_append _ .directories hdirectories, Outcome.ok_bind]
  dsimp only
  rw [Reader.count_append _ .files hfiles, Outcome.ok_bind]
  dsimp only
  rw [Reader.int32_append, Guarding.lift_eq, Outcome.ok_bind]
  dsimp only
  rw [Reader.uint32_append, Guarding.lift_eq, Outcome.ok_bind]
  dsimp only
  rw [Guarding.demand_eq]
  by_cases hrefused : depth.toInt ≠ expected ∨ Format.maxDepth < expected
  · rw [if_pos hrefused, if_pos ((refused_iff expected depth).mpr hrefused)]
    rfl
  · -- Past the check there are as many ancestors as the expected depth says.
    have hdepth : depth.toInt.toNat = expected := by
      rw [not_not.mp (not_or.mp hrefused).1, Int.toNat_natCast]
    rw [if_neg hrefused, if_neg ((refused_iff expected depth).not.mpr hrefused), hdepth]
    rfl

/-- A record that stands at a depth above the records below it: its counts fit their fields, it
    says how deep it is, which is not too deep, names as many ancestors, and has one directory
    entry for each record below it. -/
structure WellPlaced (depth : Nat) (below : Forest IndexRecord) (record : IndexRecord) : Prop
    extends record.Counted where
  depth_eq : record.depth.toInt = depth
  shallow : depth ≤ Format.maxDepth
  ancestors : record.ancestors.length = depth
  children : record.directories.length = below.trees.length

instance WellPlaced.decidable (depth : Nat) (below : Forest IndexRecord) (record : IndexRecord) :
    Decidable (record.WellPlaced depth below) :=
  decidable_of_iff ((record.directories.length < 2 ^ 31 ∧ record.files.length < 2 ^ 31) ∧
      record.depth.toInt = depth ∧ depth ≤ Format.maxDepth ∧ record.ancestors.length = depth ∧
      record.directories.length = below.trees.length)
    ⟨fun ⟨⟨hdirectories, hfiles⟩, hdepth, hshallow, hancestors, hchildren⟩ =>
        ⟨⟨hdirectories, hfiles⟩, hdepth, hshallow, hancestors, hchildren⟩,
      fun ⟨⟨hdirectories, hfiles⟩, hdepth, hshallow, hancestors, hchildren⟩ =>
        ⟨⟨hdirectories, hfiles⟩, hdepth, hshallow, hancestors, hchildren⟩⟩

theorem WellPlaced.read_append {record : IndexRecord} {depth : Nat} {below : Forest IndexRecord}
    (h : record.WellPlaced depth below) (rest : Bytes) :
    read depth (record.encode ++ rest) = .ok (record, rest) := by
  have hshallow : ¬ (record.depth.toInt ≠ depth ∨ Format.maxDepth < depth) := by
    have := h.depth_eq
    have := h.shallow
    omega
  have htimes :
      Reader.times Reader.uint64 depth (record.ancestors.flatMap Bytes.ofUInt64 ++ rest)
        = .ok (record.ancestors, rest) := by
    rw [← h.ancestors]
    exact Reader.times_append rest (fun a rest => Reader.uint64_append rest a) record.ancestors
  rw [read_front h.toCounted, if_neg hshallow, Reader.times_append _ IndexEntry.read_append,
    Outcome.ok_bind]
  dsimp only
  rw [Reader.times_append _ IndexEntry.read_append, Outcome.ok_bind]
  dsimp only
  rw [htimes]
  rfl

/-- A record that is too deep is refused, and the error says how deep it is. -/
theorem read_of_deep {record : IndexRecord} (h : record.Counted) {expected : Nat}
    (hdeep : Format.maxDepth < expected) (hfits : expected < 2 ^ 31)
    (hdepth : record.depth = Int32.ofNat expected) (rest : Bytes) :
    read expected (record.encode ++ rest)
      = .error (.corrupt (.depth record.id expected expected)) := by
  rw [read_front h, if_pos (Or.inr hdeep), hdepth, Int32.toInt_ofNat_of_lt hfits]

end IndexRecord

namespace Index

/-! ## Records in their places -/

/-- All sibling records stand at a depth above the records below them, and so on below. -/
def WellFormedAt (depth : Nat) : Forest IndexRecord → Prop
  | .nil => True
  | .cons record below rest =>
    record.WellPlaced depth below ∧ WellFormedAt (depth + 1) below ∧ WellFormedAt depth rest

instance WellFormedAt.decidable :
    (depth : Nat) → (forest : Forest IndexRecord) → Decidable (WellFormedAt depth forest)
  | _, .nil => isTrue trivial
  | depth, .cons record below rest =>
    have := WellFormedAt.decidable (depth + 1) below
    have := WellFormedAt.decidable depth rest
    inferInstanceAs (Decidable (record.WellPlaced depth below ∧ WellFormedAt (depth + 1) below ∧
      WellFormedAt depth rest))

/-- All records of an index stand in their places, the root's at depth zero. -/
structure WellFormed (index : Index) : Prop where
  root : index.label.WellPlaced 0 index.below
  below : WellFormedAt 1 index.below

instance WellFormed.decidable (index : Index) : Decidable index.WellFormed :=
  decidable_of_iff (index.label.WellPlaced 0 index.below ∧ WellFormedAt 1 index.below)
    ⟨fun ⟨hroot, hbelow⟩ => ⟨hroot, hbelow⟩, fun ⟨hroot, hbelow⟩ => ⟨hroot, hbelow⟩⟩

/-- A record that fits its place and whose numbers fit their fields stands in its place. -/
theorem Fitting.wellPlaced {depth : Nat} {record : IndexRecord} {below : Forest IndexRecord}
    (h : Fitting depth record below) (hwritable : record.Writable) :
    record.WellPlaced depth below := by
  have hshallow := hwritable.depth
  rw [h.ancestors] at hshallow
  refine ⟨hwritable.toCounted, ?_, hshallow, h.ancestors, h.length_directories⟩
  rw [h.depth_eq, Int32.toInt_ofNat_of_lt (by unfold Format.maxDepth at hshallow; omega)]

theorem wellFormedAt_of_fits {depth : Nat} {forest : Forest IndexRecord} (h : Fits depth forest)
    (hwritable : ∀ record ∈ forest.labels, record.Writable) : WellFormedAt depth forest := by
  induction forest generalizing depth with
  | nil => trivial
  | cons record below rest ihBelow ihRest =>
    obtain ⟨hfitting, hbelow, hrest⟩ := h
    rw [Forest.labels, List.forall_mem_cons, List.forall_mem_append] at hwritable
    obtain ⟨hrecord, hinside, hbeside⟩ := hwritable
    exact ⟨hfitting.wellPlaced hrecord, ihBelow hbelow hinside, ihRest hrest hbeside⟩

theorem wellFormed_of_fitsRoot {index : Index} (h : FitsRoot index)
    (hwritable : ∀ record ∈ index.labels, record.Writable) : index.WellFormed := by
  rw [Tree.labels, List.forall_mem_cons] at hwritable
  exact ⟨h.1.wellPlaced hwritable.1, wellFormedAt_of_fits h.2 hwritable.2⟩

/-! ## Reading back -/

/-- The first of sibling records is read with those below it, and then the others. -/
theorem readLevel_cons {record : IndexRecord} {levels expected : Nat}
    {below later : Forest IndexRecord} (h : record.WellPlaced expected below) (rest : Bytes) :
    readLevel (levels + 1) expected (Forest.cons record below later).trees.length
        ((Forest.cons record below later).labels.flatMap IndexRecord.encode ++ rest)
      = do
        let (children, bytes) ← readLevel levels (expected + 1) below.trees.length
          (below.labels.flatMap IndexRecord.encode
            ++ (later.labels.flatMap IndexRecord.encode ++ rest))
        let (others, bytes) ← readLevel (levels + 1) expected later.trees.length bytes
        return (.cons record children others, bytes) := by
  rw [readLevel, Forest.trees, List.length_cons, readSiblings, Forest.labels, List.flatMap_cons,
    List.flatMap_append, List.append_assoc, List.append_assoc]
  dsimp only
  rw [h.read_append, Outcome.ok_bind]
  dsimp only
  rw [h.children]

/-- Sibling records in their places are read back at the level of their depth. -/
theorem readLevel_append (levels expected : Nat) (hlevels : levels + expected = Format.maxDepth + 1)
    {forest : Forest IndexRecord} (h : WellFormedAt expected forest) (rest : Bytes) :
    readLevel levels expected forest.trees.length (forest.labels.flatMap IndexRecord.encode ++ rest)
      = .ok (forest, rest) := by
  induction forest generalizing levels expected rest with
  | nil => cases levels <;> rfl
  | cons record below later ihBelow ihLater =>
    obtain ⟨hrecord, hbelow, hlater⟩ := h
    have hshallow := hrecord.shallow
    -- A record that is not too deep leaves a level for those below it.
    obtain ⟨levels, rfl⟩ : ∃ l, levels = l + 1 := ⟨levels - 1, by omega⟩
    rw [readLevel_cons hrecord, ihBelow levels (expected + 1) (by omega) hbelow, Outcome.ok_bind]
    dsimp only
    rw [ihLater (levels + 1) expected hlevels hlater]
    rfl

/-- Where some of the records are too deep, the first of them is refused. -/
theorem readLevel_of_deep (levels expected : Nat)
    (hlevels : levels + expected = Format.maxDepth + 1) {forest : Forest IndexRecord}
    (hfits : Fits expected forest) (hcounted : ∀ record ∈ forest.labels, record.Counted)
    (hdeep : ∃ record ∈ forest.labels, Format.maxDepth < record.ancestors.length) (rest : Bytes) :
    ∃ id, readLevel levels expected forest.trees.length
        (forest.labels.flatMap IndexRecord.encode ++ rest)
      = .error (.corrupt (.depth id (Format.maxDepth + 1) (Format.maxDepth + 1))) := by
  induction forest generalizing levels expected rest with
  | nil =>
    obtain ⟨record, hmem, -⟩ := hdeep
    cases hmem
  | cons record below later ihBelow ihLater =>
    obtain ⟨hfitting, hbelow, hlater⟩ := hfits
    have hrecord := hcounted record (by simp [Forest.labels])
    have hinside : ∀ other ∈ below.labels, other.Counted := fun other hmem =>
      hcounted other (by simp [Forest.labels, hmem])
    have hbeside : ∀ other ∈ later.labels, other.Counted := fun other hmem =>
      hcounted other (by simp [Forest.labels, hmem])
    cases levels with
    | zero =>
      -- At the last level this record is itself too deep.
      obtain rfl : expected = Format.maxDepth + 1 := by omega
      refine ⟨record.id, ?_⟩
      rw [readLevel, Forest.trees, List.length_cons, readSiblings, Forest.labels,
        List.flatMap_cons, List.append_assoc]
      dsimp only
      rw [IndexRecord.read_of_deep hrecord (Nat.lt_succ_self _) (by decide) hfitting.depth_eq]
      rfl
    | succ levels =>
      have hshallow : expected ≤ Format.maxDepth := by omega
      have hwritable : record.Writable := ⟨hrecord, hfitting.ancestors ▸ hshallow⟩
      rw [readLevel_cons (hfitting.wellPlaced hwritable)]
      by_cases hfirst : ∃ other ∈ below.labels, Format.maxDepth < other.ancestors.length
      · obtain ⟨id, herror⟩ := ihBelow levels (expected + 1) (by omega) hbelow hinside hfirst
          (later.labels.flatMap IndexRecord.encode ++ rest)
        exact ⟨id, by rw [herror]; rfl⟩
      · -- Nothing below the record is too deep, so a later one is.
        have hbelowWritable : ∀ other ∈ below.labels, other.Writable := fun other hmem =>
          ⟨hinside other hmem, not_lt.mp fun hlt => hfirst ⟨other, hmem, hlt⟩⟩
        have hrest : ∃ other ∈ later.labels, Format.maxDepth < other.ancestors.length := by
          obtain ⟨other, hmem, hlt⟩ := hdeep
          rw [Forest.labels, List.mem_cons, List.mem_append] at hmem
          rcases hmem with rfl | hmem | hmem
          · exact absurd hlt (not_lt.mpr hwritable.depth)
          · exact absurd ⟨other, hmem, hlt⟩ hfirst
          · exact ⟨other, hmem, hlt⟩
        obtain ⟨id, herror⟩ := ihLater (levels + 1) expected hlevels hlater hbeside hrest rest
        refine ⟨id, ?_⟩
        rw [readLevel_append levels (expected + 1) (by omega)
          (wellFormedAt_of_fits hbelow hbelowWritable), Outcome.ok_bind]
        dsimp only
        rw [herror]
        rfl

variable {index : Index}

/-- The root's record is read, and then those below it at the first level. -/
theorem read_eq (hroot : index.label.WellPlaced 0 index.below) (rest : Bytes) :
    read (index.encode ++ rest)
      = (readLevel Format.maxDepth 1 index.below.trees.length
          (index.below.labels.flatMap IndexRecord.encode ++ rest)).map fun found =>
            (⟨index.label, found.1⟩, found.2) := by
  rw [read, encode, Tree.labels, List.flatMap_cons, List.append_assoc]
  dsimp only
  rw [hroot.read_append, Outcome.ok_bind]
  dsimp only
  rw [hroot.children]
  cases readLevel Format.maxDepth 1 index.below.trees.length
      (index.below.labels.flatMap IndexRecord.encode ++ rest) <;> rfl

/-- An index whose records stand in their places is read back, whatever follows it. -/
theorem WellFormed.read_append (h : index.WellFormed) (rest : Bytes) :
    read (index.encode ++ rest) = .ok (index, rest) := by
  rw [read_eq h.root, readLevel_append Format.maxDepth 1 rfl h.below]
  rfl

theorem WellFormed.parse_append (h : index.WellFormed) (rest : Bytes) :
    parse (index.encode ++ rest) = .ok index := by
  rw [parse, h.read_append]
  rfl

/-- An index with a record that is too deep is refused. -/
theorem parse_of_deep (hfits : FitsRoot index)
    (hcounted : ∀ record ∈ index.labels, record.Counted)
    (hdeep : ∃ record ∈ index.labels, Format.maxDepth < record.ancestors.length) (rest : Bytes) :
    ∃ id, parse (index.encode ++ rest)
      = .error (.corrupt (.depth id (Format.maxDepth + 1) (Format.maxDepth + 1))) := by
  have hroot : index.label.ancestors.length = 0 := hfits.1.ancestors
  have hbelow : ∃ record ∈ index.below.labels, Format.maxDepth < record.ancestors.length := by
    obtain ⟨record, hmem, hlt⟩ := hdeep
    rcases List.mem_cons.mp hmem with rfl | hmem
    · exact absurd hlt (by rw [hroot]; exact Nat.not_lt_zero _)
    · exact ⟨record, hmem, hlt⟩
  have hwritable : index.label.Writable :=
    ⟨hcounted _ List.mem_cons_self, hroot ▸ Nat.zero_le _⟩
  obtain ⟨id, herror⟩ := readLevel_of_deep Format.maxDepth 1 rfl hfits.2
    (fun other hmem => hcounted other (List.mem_cons_of_mem _ hmem)) hbelow rest
  refine ⟨id, ?_⟩
  rw [parse, read_eq (hfits.1.wellPlaced hwritable), herror]
  rfl

end Index

/-! ## The index of a tree of directories -/

/-- The directory has not too many subdirectories or files, and is not too deep. -/
structure Place.Writable (place : Place) : Prop where
  directories : place.tree.below.trees.length < 2 ^ 31
  files : place.tree.label.files.length < 2 ^ 31
  depth : place.depth ≤ Format.maxDepth

instance Place.decidableWritable (place : Place) : Decidable place.Writable :=
  decidable_of_iff (place.tree.below.trees.length < 2 ^ 31 ∧
      place.tree.label.files.length < 2 ^ 31 ∧ place.depth ≤ Format.maxDepth)
    ⟨fun ⟨hdirectories, hfiles, hdepth⟩ => ⟨hdirectories, hfiles, hdepth⟩,
      fun ⟨hdirectories, hfiles, hdepth⟩ => ⟨hdirectories, hfiles, hdepth⟩⟩

/-- The directory has not too many subdirectories or files, however deep it is. -/
structure Place.Counted (place : Place) : Prop where
  directories : place.tree.below.trees.length < 2 ^ 31
  files : place.tree.label.files.length < 2 ^ 31

instance Place.decidableCounted (place : Place) : Decidable place.Counted :=
  decidable_of_iff (place.tree.below.trees.length < 2 ^ 31 ∧
      place.tree.label.files.length < 2 ^ 31)
    ⟨fun ⟨hdirectories, hfiles⟩ => ⟨hdirectories, hfiles⟩,
      fun ⟨hdirectories, hfiles⟩ => ⟨hdirectories, hfiles⟩⟩

theorem Place.Writable.counted {place : Place} (h : place.Writable) : place.Counted :=
  ⟨h.directories, h.files⟩

namespace Index.Plan

variable (plan : Plan) {root : Tree Directory} {record : IndexRecord}

/-- Each record of an index is that of a directory. -/
theorem exists_place_of_mem_labels (hmem : record ∈ (plan.index root).labels) :
    ∃ place ∈ root.placesAt [], plan.summary place = record.summary :=
  List.mem_map.mp ((plan.summary_index_perm root).mem_iff.mp
    (List.mem_map_of_mem (f := IndexRecord.summary) hmem))

/-- The counts of the records fit their fields when those of the directories do. -/
theorem counted_index (hplaces : ∀ place ∈ root.placesAt [], place.Counted)
    (hmem : record ∈ (plan.index root).labels) : record.Counted := by
  obtain ⟨place, hplace, hsame⟩ := plan.exists_place_of_mem_labels hmem
  obtain ⟨-, hsame⟩ := Prod.mk.inj hsame
  obtain ⟨hfiles, hsame⟩ := Prod.mk.inj hsame
  obtain ⟨hdirectories, -⟩ := Prod.mk.inj hsame
  obtain ⟨hcount, hfileCount⟩ := hplaces place hplace
  refine ⟨hdirectories ▸ hcount, ?_⟩
  rw [← hfiles, length_entriesAt]
  exact hfileCount

/-- No record is too deep if and only if no directory is. -/
theorem shallow_index_iff :
    (∀ record ∈ (plan.index root).labels, record.ancestors.length ≤ Format.maxDepth) ↔
      ∀ place ∈ root.placesAt [], place.depth ≤ Format.maxDepth :=
  plan.forall_mem_labels_iff (g := Place.depth) (· ≤ Format.maxDepth) (fun hdepth _ => hdepth) root

/-- Records fit their fields when the directories do. -/
theorem writable_index (hplaces : ∀ place ∈ root.placesAt [], place.Writable)
    (hmem : record ∈ (plan.index root).labels) : record.Writable :=
  ⟨plan.counted_index (fun place hplace => (hplaces place hplace).counted) hmem,
    plan.shallow_index_iff.mpr (fun place hplace => (hplaces place hplace).depth) record hmem⟩

/-- The totals of an index are the numbers of directories and of files, whatever the encoding
    is. -/
theorem totals_index (root : Tree Directory) :
    (plan.index root).totals
      = ((root.placesAt []).length,
        ((root.placesAt []).map fun place => place.tree.label.files.length).sum) := by
  have hperm := plan.summary_index_perm root
  set places := root.placesAt [] with hplaces
  have hsize : (plan.index root).size = places.length := by
    have hlength := hperm.length_eq
    rw [List.length_map, List.length_map, Tree.labels, List.length_cons,
      Forest.length_labels] at hlength
    exact hlength
  have hfiles : ((plan.index root).labels.flatMap (·.files)).length
      = (places.map fun place => place.tree.label.files.length).sum := by
    have hcounts := hperm.map fun summary => summary.2.1.length
    rw [List.map_map, List.map_map] at hcounts
    have hplace : (fun summary => summary.2.1.length) ∘ plan.summary
        = fun place : Place => place.tree.label.files.length := by
      funext place
      exact plan.length_entriesAt place.location place.tree.label
    rw [hplace] at hcounts
    rw [List.length_flatMap, ← hcounts.sum_eq]
    rfl
  rw [totals, hsize, hfiles]

end Index.Plan

end HashArchive
