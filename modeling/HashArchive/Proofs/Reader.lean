/-
  HashArchive.Proofs.Reader

  Every field that is written is read back, and what stands behind it is left.  Each
  lemma is about one reader on the bytes of its value in front of any others.  Where there
  are fewer bytes than a field takes, the reader meets their end.
-/
import Mathlib
import HashArchive.Bytes.Lemmas
import HashArchive.Index.Record
import HashArchive.Record

namespace HashArchive

namespace Reader

variable (rest : Bytes)

theorem exactly_append (front rest : Bytes) :
    exactly front.length (front ++ rest) = .ok (front, rest) := by
  rw [exactly, Bytes.split?_append]

theorem exactly_append_of_length {n : Nat} {front : Bytes} (h : front.length = n) :
    exactly n (front ++ rest) = .ok (front, rest) := by
  rw [← h, exactly_append]

/-- A number that fits its width is read back. -/
theorem number_append {width n : Nat} (h : n < 256 ^ width) :
    number width (Bytes.ofNat width n ++ rest) = .ok (n, rest) := by
  have hvalue : Bytes.toNat (Bytes.ofNat width n) = n := by
    rw [Bytes.toNat_ofNat, Nat.mod_eq_of_lt h]
  rw [number, exactly_append_of_length rest (Bytes.length_ofNat width n), Outcome.ok_bind]
  dsimp only
  rw [hvalue]
  rfl

theorem uint16_append (n : UInt16) : uint16 (Bytes.ofUInt16 n ++ rest) = .ok (n, rest) := by
  have hlt : n.toNat < 256 ^ 2 := n.toNat_lt
  rw [uint16, Bytes.ofUInt16, number_append rest hlt, Outcome.ok_bind]
  dsimp only
  rw [UInt16.ofNat_toNat]
  rfl

theorem uint32_append (n : UInt32) : uint32 (Bytes.ofUInt32 n ++ rest) = .ok (n, rest) := by
  have hlt : n.toNat < 256 ^ 4 := n.toNat_lt
  rw [uint32, Bytes.ofUInt32, number_append rest hlt, Outcome.ok_bind]
  dsimp only
  rw [UInt32.ofNat_toNat]
  rfl

theorem uint64_append (n : UInt64) : uint64 (Bytes.ofUInt64 n ++ rest) = .ok (n, rest) := by
  have hlt : n.toNat < 256 ^ 8 := n.toNat_lt
  rw [uint64, Bytes.ofUInt64, number_append rest hlt, Outcome.ok_bind]
  dsimp only
  rw [UInt64.ofNat_toNat]
  rfl

theorem int32_append (n : Int32) : int32 (Bytes.ofInt32 n ++ rest) = .ok (n, rest) := by
  rw [int32, Bytes.ofInt32, uint32_append, Outcome.ok_bind]
  rfl

theorem int64_append (n : Int64) : int64 (Bytes.ofInt64 n ++ rest) = .ok (n, rest) := by
  rw [int64, Bytes.ofInt64, uint64_append, Outcome.ok_bind]
  rfl

/-- A count below the sign bit is read back. -/
theorem count_append (kind : CountKind) {n : Nat} (h : n < 2 ^ 31) :
    count kind (Bytes.ofNat 4 n ++ rest) = .ok (n, rest) := by
  have hfield : Bytes.ofNat 4 n = Bytes.ofInt32 (Int32.ofNat n) := by
    have hvalue : (Int32.ofNat n).toUInt32.toNat = n := by
      show (UInt32.ofNat n).toNat = n
      exact UInt32.toNat_ofNat_of_lt' (lt_of_lt_of_le h (by decide))
    rw [Bytes.ofInt32, Bytes.ofUInt32, hvalue]
  have hint : (Int32.ofNat n).toInt = n := Int32.toInt_ofNat_of_lt h
  have hsign : ¬ Int32.ofNat n < 0 := by
    rw [Int32.lt_iff_toInt_lt, hint, Int32.toInt_zero]
    omega
  rw [count, hfield, int32_append, Guarding.lift_eq, Outcome.ok_bind]
  dsimp only
  rw [if_neg hsign, hint, Int.toNat_natCast]
  rfl

/-- Items that are read back one by one are read back together. -/
theorem times_append {α : Type} {item : Reader α} {encode : α → Bytes}
    (hitem : ∀ a rest, item (encode a ++ rest) = .ok (a, rest)) (items : List α) :
    times item items.length (items.flatMap encode ++ rest) = .ok (items, rest) := by
  induction items with
  | nil => rfl
  | cons first items ih =>
    rw [List.length_cons, times, List.flatMap_cons, List.append_assoc]
    dsimp only
    rw [hitem, Outcome.ok_bind]
    dsimp only
    rw [ih]
    rfl

/-! ## Too few bytes -/

variable {bytes : Bytes}

theorem exactly_eq_error_iff {n : Nat} {error : ArchiveError} :
    exactly n bytes = .error error ↔ bytes.length < n ∧ error = .endOfStream := by
  rw [← Bytes.split?_eq_none_iff, exactly]
  cases bytes.split? n with
  | none => simp [eq_comm]
  | some found => simp

theorem number_eq_error_iff {width : Nat} {error : ArchiveError} :
    number width bytes = .error error ↔ bytes.length < width ∧ error = .endOfStream := by
  simp [number, Outcome.bind_eq_error_iff, exactly_eq_error_iff, pure, Except.pure]

theorem uint16_eq_error_iff {error : ArchiveError} :
    uint16 bytes = .error error ↔ bytes.length < 2 ∧ error = .endOfStream := by
  simp [uint16, Outcome.bind_eq_error_iff, number_eq_error_iff, pure, Except.pure]

theorem uint32_eq_error_iff {error : ArchiveError} :
    uint32 bytes = .error error ↔ bytes.length < 4 ∧ error = .endOfStream := by
  simp [uint32, Outcome.bind_eq_error_iff, number_eq_error_iff, pure, Except.pure]

theorem uint64_eq_error_iff {error : ArchiveError} :
    uint64 bytes = .error error ↔ bytes.length < 8 ∧ error = .endOfStream := by
  simp [uint64, Outcome.bind_eq_error_iff, number_eq_error_iff, pure, Except.pure]

theorem int32_eq_error_iff {error : ArchiveError} :
    int32 bytes = .error error ↔ bytes.length < 4 ∧ error = .endOfStream := by
  simp [int32, Outcome.bind_eq_error_iff, uint32_eq_error_iff, pure, Except.pure]

theorem int64_eq_error_iff {error : ArchiveError} :
    int64 bytes = .error error ↔ bytes.length < 8 ∧ error = .endOfStream := by
  simp [int64, Outcome.bind_eq_error_iff, uint64_eq_error_iff, pure, Except.pure]

/-- Where there are enough bytes, they are taken off the front. -/
theorem exactly_of_le {n : Nat} (h : n ≤ bytes.length) :
    exactly n bytes = .ok (bytes.take n, bytes.drop n) := by
  have hexactly := exactly_append_of_length (bytes.drop n) (List.length_take_of_le h)
  rwa [List.take_append_drop] at hexactly

theorem uint32_of_le (h : 4 ≤ bytes.length) :
    uint32 bytes = .ok (UInt32.ofNat (Bytes.toNat (bytes.take 4)), bytes.drop 4) := by
  rw [uint32, number, exactly_of_le h]
  rfl

end Reader

namespace IndexEntry

theorem read_append (entry : IndexEntry) (rest : Bytes) :
    read (entry.encode ++ rest) = .ok (entry, rest) := by
  rw [read, encode, List.append_assoc, Reader.uint64_append, Outcome.ok_bind]
  dsimp only
  rw [Reader.int64_append]
  rfl

end IndexEntry

namespace RecordHeader

theorem read_append (header : RecordHeader) (rest : Bytes) :
    read (header.encode ++ rest) = .ok (header, rest) := by
  obtain ⟨compressed, contentSize, storedSize⟩ := header
  rw [read, encode]
  simp only [List.append_assoc, Reader.uint32_append, Outcome.ok_bind]
  cases compressed <;> rfl

/-- The header that sixteen bytes spell, four for each field; the second is unused. -/
def ofField (field : Bytes) : RecordHeader where
  compressed := Bytes.toNat (field.take 4) == 1
  contentSize := UInt32.ofNat (Bytes.toNat ((field.drop 8).take 4))
  storedSize := UInt32.ofNat (Bytes.toNat ((field.drop 12).take 4))

/-- Only the number one is read as the flag's one. -/
theorem ofNat_toNat_take_beq_one (bytes : Bytes) :
    (UInt32.ofNat (Bytes.toNat (bytes.take 4)) == 1) = (Bytes.toNat (bytes.take 4) == 1) := by
  have hlt : Bytes.toNat (bytes.take 4) < UInt32.size :=
    lt_of_lt_of_le (Bytes.toNat_lt _) (Nat.pow_le_pow_right (by decide) (List.length_take_le 4 _))
  rw [Bool.eq_iff_iff, beq_iff_eq, beq_iff_eq, ← UInt32.toNat_inj,
    UInt32.toNat_ofNat_of_lt' hlt]
  rfl

/-- A header is what the first sixteen bytes spell. -/
theorem read_of_le {bytes : Bytes} (h : Format.headerLength ≤ bytes.length) :
    read bytes = .ok (ofField (bytes.take Format.headerLength), bytes.drop Format.headerLength) := by
  rw [Format.headerLength] at h ⊢
  have hflag : 4 ≤ bytes.length := by omega
  have hunused : 4 ≤ (bytes.drop 4).length := by rw [List.length_drop]; omega
  have hcontent : 4 ≤ (bytes.drop 8).length := by rw [List.length_drop]; omega
  have hstored : 4 ≤ (bytes.drop 12).length := by rw [List.length_drop]; omega
  rw [read, Reader.uint32_of_le hflag, Outcome.ok_bind]
  dsimp only
  rw [Reader.uint32_of_le hunused, Outcome.ok_bind]
  dsimp only
  rw [List.drop_drop, Reader.uint32_of_le hcontent, Outcome.ok_bind]
  dsimp only
  rw [List.drop_drop, Reader.uint32_of_le hstored, Outcome.ok_bind]
  dsimp only
  rw [List.drop_drop, ofField, ofNat_toNat_take_beq_one]
  simp only [List.take_take, List.drop_take, Nat.reduceAdd, Nat.reduceSub, Nat.reduceLeDiff,
    Nat.min_eq_left]
  rfl

theorem read_of_length_lt {bytes : Bytes} (h : bytes.length < Format.headerLength) :
    read bytes = .error .endOfStream := by
  rw [Format.headerLength] at h
  rw [read]
  -- The fields are there up to the one that the bytes end in.
  by_cases hflag : 4 ≤ bytes.length
  · rw [Reader.uint32_of_le hflag, Outcome.ok_bind]
    dsimp only
    by_cases hunused : 4 ≤ (bytes.drop 4).length
    · rw [Reader.uint32_of_le hunused, Outcome.ok_bind]
      dsimp only
      by_cases hcontent : 4 ≤ ((bytes.drop 4).drop 4).length
      · rw [Reader.uint32_of_le hcontent, Outcome.ok_bind]
        dsimp only
        rw [Reader.uint32_eq_error_iff.mpr ⟨by simp only [List.length_drop]; omega, rfl⟩,
          Outcome.error_bind]
      · rw [Reader.uint32_eq_error_iff.mpr ⟨Nat.lt_of_not_le hcontent, rfl⟩, Outcome.error_bind]
    · rw [Reader.uint32_eq_error_iff.mpr ⟨Nat.lt_of_not_le hunused, rfl⟩, Outcome.error_bind]
  · rw [Reader.uint32_eq_error_iff.mpr ⟨Nat.lt_of_not_le hflag, rfl⟩, Outcome.error_bind]

end RecordHeader

end HashArchive
