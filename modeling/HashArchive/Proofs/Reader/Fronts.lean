/-
  HashArchive.Proofs.Reader.Fronts

  The fronts that readers take.  A value that is read stands written at the front, since each
  field spells one value only (the `_eq_ok_iff` lemmas); and an answer other than the end of
  the bytes stays when there are more bytes (`Stable`), so a front that is cut short is never
  taken for another one (`Stable.take_of_lt`).
-/
import Mathlib
import HashArchive.Proofs.Reader

namespace HashArchive

namespace Reader

/-! ## What was read stands at the front -/

variable {bytes rest : Bytes}

theorem exactly_eq_ok_iff {n : Nat} {field : Bytes} :
    exactly n bytes = .ok (field, rest) ↔ bytes = field ++ rest ∧ field.length = n := by
  rw [← Bytes.split?_eq_some_iff, exactly]
  cases bytes.split? n with
  | none => simp
  | some found => simp

theorem number_eq_ok_iff {width n : Nat} :
    number width bytes = .ok (n, rest) ↔ bytes = Bytes.ofNat width n ++ rest ∧ n < 256 ^ width := by
  constructor
  · intro h
    obtain ⟨⟨field, rest'⟩, hfield, h⟩ := Outcome.bind_eq_ok_iff.mp h
    obtain ⟨rfl, rfl⟩ := Outcome.pure_pair_eq_ok_iff.mp h
    obtain ⟨rfl, rfl⟩ := exactly_eq_ok_iff.mp hfield
    rw [Bytes.ofNat_toNat]
    exact ⟨rfl, Bytes.toNat_lt field⟩
  · rintro ⟨rfl, hlt⟩
    exact number_append rest hlt

theorem uint16_eq_ok_iff {n : UInt16} :
    uint16 bytes = .ok (n, rest) ↔ bytes = Bytes.ofUInt16 n ++ rest := by
  constructor
  · intro h
    obtain ⟨⟨value, rest'⟩, hvalue, h⟩ := Outcome.bind_eq_ok_iff.mp h
    obtain ⟨rfl, rfl⟩ := Outcome.pure_pair_eq_ok_iff.mp h
    obtain ⟨rfl, hlt⟩ := number_eq_ok_iff.mp hvalue
    rw [Bytes.ofUInt16, UInt16.toNat_ofNat_of_lt' hlt]
  · rintro rfl
    exact uint16_append rest n

theorem uint32_eq_ok_iff {n : UInt32} :
    uint32 bytes = .ok (n, rest) ↔ bytes = Bytes.ofUInt32 n ++ rest := by
  constructor
  · intro h
    obtain ⟨⟨value, rest'⟩, hvalue, h⟩ := Outcome.bind_eq_ok_iff.mp h
    obtain ⟨rfl, rfl⟩ := Outcome.pure_pair_eq_ok_iff.mp h
    obtain ⟨rfl, hlt⟩ := number_eq_ok_iff.mp hvalue
    rw [Bytes.ofUInt32, UInt32.toNat_ofNat_of_lt' hlt]
  · rintro rfl
    exact uint32_append rest n

theorem uint64_eq_ok_iff {n : UInt64} :
    uint64 bytes = .ok (n, rest) ↔ bytes = Bytes.ofUInt64 n ++ rest := by
  constructor
  · intro h
    obtain ⟨⟨value, rest'⟩, hvalue, h⟩ := Outcome.bind_eq_ok_iff.mp h
    obtain ⟨rfl, rfl⟩ := Outcome.pure_pair_eq_ok_iff.mp h
    obtain ⟨rfl, hlt⟩ := number_eq_ok_iff.mp hvalue
    rw [Bytes.ofUInt64, UInt64.toNat_ofNat_of_lt' hlt]
  · rintro rfl
    exact uint64_append rest n

theorem int32_eq_ok_iff {n : Int32} :
    int32 bytes = .ok (n, rest) ↔ bytes = Bytes.ofInt32 n ++ rest := by
  constructor
  · intro h
    obtain ⟨⟨value, rest'⟩, hvalue, h⟩ := Outcome.bind_eq_ok_iff.mp h
    obtain ⟨rfl, rfl⟩ := Outcome.pure_pair_eq_ok_iff.mp h
    exact uint32_eq_ok_iff.mp hvalue
  · rintro rfl
    exact int32_append rest n

theorem int64_eq_ok_iff {n : Int64} :
    int64 bytes = .ok (n, rest) ↔ bytes = Bytes.ofInt64 n ++ rest := by
  constructor
  · intro h
    obtain ⟨⟨value, rest'⟩, hvalue, h⟩ := Outcome.bind_eq_ok_iff.mp h
    obtain ⟨rfl, rfl⟩ := Outcome.pure_pair_eq_ok_iff.mp h
    exact uint64_eq_ok_iff.mp hvalue
  · rintro rfl
    exact int64_append rest n

/-- A number that is not negative is spelled as the natural number it is. -/
theorem ofInt32_eq_ofNat {n : Int32} (h : ¬ n < 0) :
    Bytes.ofInt32 n = Bytes.ofNat 4 n.toInt.toNat ∧ n.toInt.toNat < 2 ^ 31 := by
  have hnonneg : 0 ≤ n.toInt := by
    rw [Int32.lt_iff_toInt_lt] at h
    exact not_lt.mp h
  have hlt : n.toInt < 2 ^ 31 := n.toInt_lt
  have hvalue : n.toInt = n.toUInt32.toNat := by
    have hcases := BitVec.toInt_eq_toNat_cond n.toBitVec
    have hword : n.toBitVec.toInt = n.toInt := rfl
    have hnat : n.toBitVec.toNat = n.toUInt32.toNat := rfl
    have hsize := n.toUInt32.toNat_lt
    rw [hword, hnat] at hcases
    split at hcases
    · exact hcases
    · omega
  refine ⟨?_, by omega⟩
  rw [Bytes.ofInt32, Bytes.ofUInt32, hvalue, Int.toNat_natCast]

theorem count_eq_ok_iff {kind : CountKind} {n : Nat} :
    count kind bytes = .ok (n, rest) ↔ bytes = Bytes.ofNat 4 n ++ rest ∧ n < 2 ^ 31 := by
  constructor
  · intro h
    obtain ⟨⟨value, rest'⟩, hvalue, h⟩ := Outcome.bind_eq_ok_iff.mp h
    dsimp only at h
    split at h
    · cases h
    · next hsign =>
      obtain ⟨rfl, rfl⟩ := Outcome.pure_pair_eq_ok_iff.mp h
      obtain ⟨hspelled, hlt⟩ := ofInt32_eq_ofNat hsign
      rw [← hspelled]
      exact ⟨int32_eq_ok_iff.mp hvalue, hlt⟩
  · rintro ⟨rfl, hlt⟩
    exact count_append rest kind hlt

/-- A count fails where its bytes are missing, or where they spell a negative number. -/
theorem count_eq_error_iff {kind : CountKind} {error : ArchiveError} :
    count kind bytes = .error error ↔
      (bytes.length < 4 ∧ error = .endOfStream) ∨
        ∃ n rest, bytes = Bytes.ofInt32 n ++ rest ∧ n < 0 ∧
          error = .corrupt (.negativeCount kind n.toInt) := by
  constructor
  · intro h
    rcases Outcome.bind_eq_error_iff.mp h with hfield | ⟨⟨n, rest⟩, hfield, hsign⟩
    · exact .inl (int32_eq_error_iff.mp hfield)
    · dsimp only at hsign
      split at hsign
      · next hnegative =>
        exact .inr ⟨n, rest, int32_eq_ok_iff.mp hfield, hnegative, (Except.error.inj hsign).symm⟩
      · cases hsign
  · rintro (⟨hshort, rfl⟩ | ⟨n, rest, rfl, hnegative, rfl⟩)
    · rw [count, int32_eq_error_iff.mpr ⟨hshort, rfl⟩, Guarding.lift_eq, Outcome.error_bind]
    · rw [count, int32_append, Guarding.lift_eq, Outcome.ok_bind]
      exact if_pos hnegative

variable {α β : Type}

/-- Items that stand written when they are read stand written one after another. -/
theorem times_eq_ok_iff {item : Reader α} {encode : α → Bytes}
    (hitem : ∀ {bytes rest : Bytes} {a : α}, item bytes = .ok (a, rest) ↔ bytes = encode a ++ rest)
    {n : Nat} {items : List α} :
    times item n bytes = .ok (items, rest) ↔
      items.length = n ∧ bytes = items.flatMap encode ++ rest := by
  constructor
  · intro h
    induction n generalizing bytes items with
    | zero =>
      obtain ⟨rfl, rfl⟩ := Prod.mk.inj (Except.ok.inj h)
      exact ⟨rfl, rfl⟩
    | succ n ih =>
      obtain ⟨⟨first, bytes₁⟩, hfirst, h⟩ := Outcome.bind_eq_ok_iff.mp h
      obtain ⟨⟨others, bytes₂⟩, hothers, h⟩ := Outcome.bind_eq_ok_iff.mp h
      obtain ⟨rfl, rfl⟩ := Outcome.pure_pair_eq_ok_iff.mp h
      obtain ⟨hlength, hback⟩ := ih hothers
      rw [hitem.mp hfirst, hback, List.flatMap_cons, List.append_assoc, List.length_cons, hlength]
      exact ⟨rfl, rfl⟩
  · rintro ⟨rfl, rfl⟩
    exact times_append rest (fun a rest => hitem.mpr rfl) items

/-- Items that only fail at the end of the bytes do so together as well. -/
theorem times_of_error {item : Reader α}
    (hitem : ∀ {bytes : Bytes} {error : ArchiveError}, item bytes = .error error →
      error = .endOfStream)
    {n : Nat} {error : ArchiveError} (h : times item n bytes = .error error) :
    error = .endOfStream := by
  induction n generalizing bytes with
  | zero => cases h
  | succ n ih =>
    rcases Outcome.bind_eq_error_iff.mp h with hfirst | ⟨⟨first, bytes₁⟩, -, h⟩
    · exact hitem hfirst
    rcases Outcome.bind_eq_error_iff.mp h with hothers | ⟨⟨others, bytes₂⟩, -, h⟩
    · exact ih hothers
    · cases h

/-! ## Answers that stay -/

/-- More bytes change no answer but that the bytes end too early: a value that was read is read
    again, and a fault that was found is found again. -/
structure Stable (item : Reader α) : Prop where
  value : ∀ {bytes rest : Bytes} {a : α}, item bytes = .ok (a, rest) →
    ∀ more, item (bytes ++ more) = .ok (a, rest ++ more)
  fault : ∀ {bytes : Bytes} {error : ArchiveError}, item bytes = .error error →
    error ≠ .endOfStream → ∀ more, item (bytes ++ more) = .error error

/-- Where the bytes that a value takes are cut, their end is met. -/
theorem Stable.take_of_lt {item : Reader α} (h : Stable item) {front : Bytes} {a : α}
    (hwhole : item front = .ok (a, [])) {cut : Nat} (hcut : cut < front.length) :
    item (front.take cut) = .error .endOfStream := by
  -- Any other answer would be that of the whole front, which leaves nothing.
  cases hanswer : item (front.take cut) with
  | ok read =>
    obtain ⟨b, rest⟩ := read
    have hsame := h.value hanswer (front.drop cut)
    rw [List.take_append_drop, hwhole] at hsame
    obtain ⟨-, hnothing⟩ := Prod.mk.inj (Except.ok.inj hsame)
    have hdrop := (List.append_eq_nil_iff.mp hnothing.symm).2
    rw [List.drop_eq_nil_iff] at hdrop
    omega
  | error error =>
    by_cases hend : error = .endOfStream
    · rw [hend]
    · have hsame := h.fault hanswer hend (front.drop cut)
      rw [List.take_append_drop, hwhole] at hsame
      cases hsame

theorem stable_pure (a : α) : Stable fun bytes => .ok (a, bytes) where
  value := by
    intro bytes rest b h more
    obtain ⟨rfl, rfl⟩ := Prod.mk.inj (Except.ok.inj h)
    rfl
  fault := fun h => nomatch h

theorem stable_error (error : ArchiveError) : Stable fun _ => (.error error : Except _ (α × Bytes)) where
  value := fun h => nomatch h
  fault := fun h _ _ => h

/-- A choice that does not look at the bytes. -/
theorem Stable.ite {p : Prop} [Decidable p] {first second : Reader α} (hfirst : p → Stable first)
    (hsecond : ¬ p → Stable second) :
    Stable fun bytes => if p then first bytes else second bytes := by
  by_cases h : p
  · simpa only [if_pos h] using hfirst h
  · simpa only [if_neg h] using hsecond h

/-- One reader after another. -/
theorem Stable.bind {item : Reader α} {next : α × Bytes → Except ArchiveError (β × Bytes)}
    (h : Stable item) (hnext : ∀ a, Stable fun rest => next (a, rest)) :
    Stable fun bytes => item bytes >>= next where
  value := by
    intro bytes rest b hboth more
    obtain ⟨⟨a, left⟩, hfirst, hsecond⟩ := Outcome.bind_eq_ok_iff.mp hboth
    rw [h.value hfirst, Outcome.ok_bind]
    exact (hnext a).value hsecond more
  fault := by
    intro bytes error hboth hend more
    cases hfirst : item bytes with
    | error other =>
      rw [hfirst] at hboth
      obtain rfl := Except.error.inj hboth
      rw [h.fault hfirst hend, Outcome.error_bind]
    | ok read =>
      obtain ⟨a, left⟩ := read
      rw [hfirst] at hboth
      rw [h.value hfirst, Outcome.ok_bind]
      exact (hnext a).fault hboth hend more

theorem stable_exactly (n : Nat) : Stable (exactly n) where
  value := by
    intro bytes rest field h more
    obtain ⟨rfl, hlength⟩ := exactly_eq_ok_iff.mp h
    exact exactly_eq_ok_iff.mpr ⟨List.append_assoc _ _ _, hlength⟩
  fault := by
    intro bytes error h hend
    rw [exactly] at h
    split at h
    · cases h
    · exact absurd (Except.error.inj h).symm hend

theorem stable_number (width : Nat) : Stable (number width) :=
  (stable_exactly width).bind fun _ => stable_pure _

theorem stable_uint32 : Stable uint32 := (stable_number 4).bind fun _ => stable_pure _

theorem stable_uint64 : Stable uint64 := (stable_number 8).bind fun _ => stable_pure _

theorem stable_int32 : Stable int32 := stable_uint32.bind fun _ => stable_pure _

theorem stable_int64 : Stable int64 := stable_uint64.bind fun _ => stable_pure _

theorem stable_count (kind : CountKind) : Stable (count kind) :=
  stable_int32.bind fun _ => .ite (fun _ => stable_error _) fun _ => stable_pure _

theorem stable_times {item : Reader α} (h : Stable item) (n : Nat) : Stable (times item n) := by
  induction n with
  | zero => exact stable_pure []
  | succ n ih => exact h.bind fun _ => ih.bind fun _ => stable_pure _

end Reader

namespace IndexEntry

theorem read_eq_ok_iff {entry : IndexEntry} {bytes rest : Bytes} :
    read bytes = .ok (entry, rest) ↔ bytes = entry.encode ++ rest := by
  constructor
  · intro h
    obtain ⟨⟨key, bytes₁⟩, hkey, h⟩ := Outcome.bind_eq_ok_iff.mp h
    obtain ⟨⟨offset, bytes₂⟩, hoffset, h⟩ := Outcome.bind_eq_ok_iff.mp h
    obtain ⟨rfl, rfl⟩ := Outcome.pure_pair_eq_ok_iff.mp h
    rw [Reader.uint64_eq_ok_iff.mp hkey, Reader.int64_eq_ok_iff.mp hoffset, encode,
      List.append_assoc]
  · rintro rfl
    exact read_append entry rest

theorem stable_read : Reader.Stable read :=
  Reader.stable_uint64.bind fun _ => Reader.stable_int64.bind fun _ => Reader.stable_pure _

end IndexEntry

end HashArchive
