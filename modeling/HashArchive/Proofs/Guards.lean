/-
  HashArchive.Proofs.Guards

  The guards of the metadata reader are always met: what the bytes say is checked before it is
  used.  A number that counts something is not negative, a sum fits its type, a range lies in
  its payload, and a table that is taken is at a depth that is allowed; so the guarded reader
  answers what the plain one does, on all bytes (`scan_eq`, `parse_eq`, `names_eq`).
-/
import Mathlib
import HashArchive.Index.Record
import HashArchive.Proofs.Metadata
import HashArchive.Proofs.NameTable.Records

namespace HashArchive.Guarded

variable {α β : Type}

/-- Steps one after another never trap when each does not on what the one before it gives. -/
theorem lift_bind_eq {x : Except ArchiveError α} {f : α → Except ArchiveError β}
    {g : α → Guarded β} (h : ∀ a, x = .ok a → g a = lift (f a)) :
    (lift x >>= g) = lift (x >>= f) := by
  cases x with
  | error error => rfl
  | ok a => exact h a rfl

/-! ## Counts -/

theorem count_eq (kind : CountKind) (bytes : Bytes) :
    Reader.count kind bytes = lift (Reader.count kind bytes) := by
  rw [Reader.count, Reader.count]
  apply lift_bind_eq
  rintro ⟨n, rest⟩ -
  dsimp only
  by_cases hneg : n < 0
  · rw [if_pos hneg, if_pos hneg]
    rfl
  · have hnonneg : 0 ≤ n.toInt := by
      rw [Int32.lt_iff_toInt_lt] at hneg
      exact not_lt.mp hneg
    rw [if_neg hneg, if_neg hneg, demand_of hnonneg]
    rfl

/-! ## The name table -/

theorem nameRecord_eq (bytes : Bytes) : NameRecord.read bytes = lift (NameRecord.read bytes) := by
  rw [NameRecord.read, NameRecord.read]
  apply lift_bind_eq
  rintro ⟨key, rest⟩ -
  dsimp only
  rw [count_eq]
  apply lift_bind_eq
  rintro ⟨units, rest⟩ -
  apply lift_bind_eq
  rintro ⟨units, rest⟩ -
  rfl

theorem nameRecords_eq (bytes : Bytes) :
    NameTable.parseRecords bytes = lift (NameTable.parseRecords bytes) := by
  -- Each record takes bytes, so the induction is on how many there are.
  induction hlength : bytes.length using Nat.strong_induction_on generalizing bytes with
  | _ length ih =>
    by_cases hempty : bytes = []
    · rw [NameTable.parseRecords, NameTable.parseRecords, if_pos hempty, if_pos hempty]
      rfl
    · rw [NameTable.parseRecords_of_ne_nil hempty, NameTable.parseRecords_of_ne_nil hempty,
        nameRecord_eq]
      apply lift_bind_eq
      rintro ⟨record, rest⟩ hrecord
      dsimp only
      rw [ih rest.length (hlength ▸ NameRecord.length_lt_of_read hrecord) rest rfl]
      exact lift_bind_eq fun _ _ => rfl

/-- A name table is read without a trap. -/
theorem names_eq (bytes : Bytes) : NameTable.parse bytes = lift (NameTable.parse bytes) := by
  rw [NameTable.parse, NameTable.parse, nameRecords_eq]
  exact lift_bind_eq fun _ _ => rfl

/-! ## The blocks -/

theorem block_eq (bytes : Bytes) : BlockKind.read bytes = lift (BlockKind.read bytes) := by
  rw [BlockKind.read, BlockKind.read]
  apply lift_bind_eq
  rintro ⟨number, rest⟩ -
  apply lift_bind_eq
  rintro ⟨size, rest⟩ -
  dsimp only
  cases BlockKind.ofNumber? number with
  | none => rfl
  | some kind =>
    dsimp only
    by_cases hneg : size < 0
    · rw [if_pos hneg, if_pos hneg]
      rfl
    · have hnonneg : 0 ≤ size.toInt := by
        rw [Int64.lt_iff_toInt_lt] at hneg
        exact not_lt.mp hneg
      rw [if_neg hneg, if_neg hneg, demand_of hnonneg]
      apply lift_bind_eq
      rintro ⟨payload, rest⟩ -
      rfl

theorem unwrapNames_eq (payload : Bytes) :
    Metadata.unwrapNames payload = lift (Metadata.unwrapNames payload) := by
  rw [Metadata.unwrapNames, Metadata.unwrapNames]
  apply lift_bind_eq
  rintro ⟨header, rest⟩ -
  dsimp only
  -- The size is a 32-bit number, so the sum fits in 64 bits.
  have hsum : Format.headerLength + header.storedSize.toNat < UInt64.size := by
    have hsize := header.storedSize.toNat_lt
    rw [Format.headerLength, UInt64.size]
    omega
  rw [demand_of hsum, Guarding.demand_eq]
  by_cases hshort : payload.length < Format.headerLength + header.storedSize.toNat
  · rw [if_pos hshort, if_pos hshort]
    rfl
  · rw [if_neg hshort, if_neg hshort, demand_of ⟨Nat.le_add_right _ _, not_lt.mp hshort⟩]
    rfl

theorem add_eq (seen : Metadata.Seen) (kind : BlockKind) (payload : Bytes) :
    seen.add kind payload = lift (seen.add kind payload) := by
  cases kind with
  | utf16Index => rfl
  | utf8Index => rfl
  | names =>
    rw [Metadata.Seen.add, Metadata.Seen.add, unwrapNames_eq]
    exact lift_bind_eq fun _ _ => rfl

theorem searchFrom_eq (seen : Metadata.Seen) (bytes : Bytes) :
    Metadata.searchFrom seen bytes = lift (Metadata.searchFrom seen bytes) := by
  -- Each block takes bytes, so the induction is on how many there are.
  induction hlength : bytes.length using Nat.strong_induction_on generalizing seen bytes with
  | _ length ih =>
    cases hcomplete : seen.complete with
    | inl payloads =>
      rw [Metadata.searchFrom, Metadata.searchFrom, hcomplete]
      rfl
    | inr missing =>
      by_cases hshort : bytes.length < 4
      · rw [Metadata.searchFrom_of_short hcomplete hshort,
          Metadata.searchFrom_of_short hcomplete hshort]
        rfl
      · rw [Metadata.searchFrom_of_missing hcomplete (not_lt.mp hshort),
          Metadata.searchFrom_of_missing hcomplete (not_lt.mp hshort), block_eq]
        apply lift_bind_eq
        rintro ⟨found, rest⟩ hblock
        dsimp only
        rw [add_eq]
        apply lift_bind_eq
        intro more _
        exact ih _ (hlength ▸ BlockKind.length_of_read hblock) more rest rfl

/-- The blocks are found without a trap. -/
theorem scan_eq (bytes : Bytes) : Metadata.scan bytes = lift (Metadata.scan bytes) := by
  rw [Metadata.scan, Metadata.scan, Metadata.scanFrom, Metadata.scanFrom, searchFrom_eq]
  cases Metadata.searchFrom {} bytes with
  | error error => rfl
  | ok found => rfl

/-! ## The tables of an index -/

theorem record_eq {expected : Nat} (h : expected ≤ Format.maxDepth + 1) (bytes : Bytes) :
    IndexRecord.read expected bytes = lift (IndexRecord.read expected bytes) := by
  rw [IndexRecord.read, IndexRecord.read]
  apply lift_bind_eq
  rintro ⟨tag, rest⟩ -
  dsimp only
  by_cases htag : tag ≠ Format.recordTag
  · rw [if_pos htag, if_pos htag]
    rfl
  · rw [if_neg htag, if_neg htag]
    simp only [count_eq]
    apply lift_bind_eq
    rintro ⟨id, rest⟩ -
    apply lift_bind_eq
    rintro ⟨directoryCount, rest⟩ -
    apply lift_bind_eq
    rintro ⟨fileCount, rest⟩ -
    apply lift_bind_eq
    rintro ⟨depth, rest⟩ -
    apply lift_bind_eq
    rintro ⟨-, rest⟩ -
    dsimp only
    have hfits : (expected : Int) ≤ Int32.maxValue.toInt := by
      rw [Format.maxDepth] at h
      rw [Int32.toInt_maxValue]
      omega
    rw [demand_of hfits, Guarding.demand_eq]
    by_cases hrefused : depth.toInt ≠ expected ∨ (Format.maxDepth : Int) < depth.toInt
    · rw [if_pos hrefused, if_pos hrefused]
      rfl
    · -- The depth has been compared, so it is not negative.
      have hdepth : 0 ≤ depth.toInt := by
        rw [not_not.mp (not_or.mp hrefused).1]
        exact Int.natCast_nonneg expected
      rw [if_neg hrefused, if_neg hrefused]
      apply lift_bind_eq
      rintro ⟨directories, rest⟩ -
      apply lift_bind_eq
      rintro ⟨files, rest⟩ -
      dsimp only
      rw [demand_of hdepth]
      apply lift_bind_eq
      rintro ⟨ancestors, rest⟩ -
      rfl

/-- A record that is taken is at the expected depth, and that is not beyond the last one. -/
theorem depth_of_read {expected : Nat} {bytes rest : Bytes} {record : IndexRecord}
    (h : IndexRecord.read expected bytes = .ok (record, rest)) :
    record.depth.toInt = expected ∧ record.depth.toInt ≤ Format.maxDepth := by
  rw [IndexRecord.read] at h
  obtain ⟨⟨tag, rest₁⟩, -, h⟩ := Outcome.bind_eq_ok_iff.mp h
  dsimp only at h
  split at h
  · cases h
  · obtain ⟨⟨id, rest₂⟩, -, h⟩ := Outcome.bind_eq_ok_iff.mp h
    obtain ⟨⟨directoryCount, rest₃⟩, -, h⟩ := Outcome.bind_eq_ok_iff.mp h
    obtain ⟨⟨fileCount, rest₄⟩, -, h⟩ := Outcome.bind_eq_ok_iff.mp h
    obtain ⟨⟨depth, rest₅⟩, -, h⟩ := Outcome.bind_eq_ok_iff.mp h
    obtain ⟨⟨unused, rest₆⟩, -, h⟩ := Outcome.bind_eq_ok_iff.mp h
    rw [Guarding.demand_eq] at h
    split at h
    · cases h
    · next hplaced =>
      push Not at hplaced
      obtain ⟨⟨directories, rest₇⟩, -, h⟩ := Outcome.bind_eq_ok_iff.mp h
      obtain ⟨⟨files, rest₈⟩, -, h⟩ := Outcome.bind_eq_ok_iff.mp h
      obtain ⟨⟨ancestors, rest₉⟩, -, h⟩ := Outcome.bind_eq_ok_iff.mp h
      obtain ⟨rfl, -⟩ := Outcome.pure_pair_eq_ok_iff.mp h
      exact hplaced

/-- Tables are read without a trap, where all depths from theirs on are levels of the reader. -/
theorem readLevel_eq (levels expected : Nat) (h : levels + expected = Format.maxDepth + 1)
    (count : Nat) (bytes : Bytes) :
    Index.readLevel levels expected count bytes
      = lift (Index.readLevel levels expected count bytes) := by
  induction levels generalizing expected count bytes with
  | zero =>
    cases count with
    | zero => rfl
    | succ count =>
      -- No table is taken at this depth, so no level below it is missed.
      rw [Index.readLevel, Index.readLevel, Index.readSiblings, Index.readSiblings]
      dsimp only
      rw [record_eq (by omega)]
      cases hread : IndexRecord.read expected bytes with
      | error error => rfl
      | ok found =>
        have hdepth := depth_of_read hread
        omega
  | succ levels ih =>
    rw [Index.readLevel, Index.readLevel]
    induction count generalizing bytes with
    | zero => rfl
    | succ count ihCount =>
      rw [Index.readSiblings, Index.readSiblings]
      dsimp only
      rw [record_eq (by omega)]
      apply lift_bind_eq
      rintro ⟨record, rest⟩ -
      dsimp only
      rw [ih (expected + 1) (by omega)]
      apply lift_bind_eq
      rintro ⟨below, rest⟩ -
      dsimp only
      rw [ihCount]
      exact lift_bind_eq fun _ _ => rfl

/-- An index is read without a trap. -/
theorem parse_eq (bytes : Bytes) : Index.parse bytes = lift (Index.parse bytes) := by
  have hread : Index.read bytes = lift (Index.read bytes) := by
    rw [Index.read, Index.read, record_eq (Nat.zero_le _)]
    apply lift_bind_eq
    rintro ⟨record, rest⟩ -
    dsimp only
    rw [readLevel_eq _ _ rfl]
    exact lift_bind_eq fun _ _ => rfl
  rw [Index.parse, Index.parse, hread]
  exact lift_bind_eq fun _ _ => rfl

end HashArchive.Guarded
