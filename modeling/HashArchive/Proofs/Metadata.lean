/-
  HashArchive.Proofs.Metadata

  The three metadata blocks of a written archive are found again, in whatever order they
  are looked at: a block that is taken off the front leaves the rest of the search.  Where the
  blocks are cut, the search ends early (`Metadata.endsEarly_scan_take`).
-/
import Mathlib
import HashArchive.Metadata
import HashArchive.Proofs.Reader.Fronts

namespace HashArchive

namespace Bytes

/-- A number below the sign bit is written as a signed one is. -/
theorem ofNat_eq_ofInt64 {n : Nat} (h : n < 2 ^ 63) : ofNat 8 n = ofInt64 (Int64.ofNat n) := by
  have hvalue : (Int64.ofNat n).toUInt64.toNat = n := by
    show (UInt64.ofNat n).toNat = n
    exact UInt64.toNat_ofNat_of_lt' (lt_of_lt_of_le h (by decide))
  rw [ofInt64, ofUInt64, hvalue]

end Bytes

namespace BlockKind

theorem ofNumber?_number (kind : BlockKind) : ofNumber? kind.number = some kind := by
  cases kind <;> decide

theorem length_encode (kind : BlockKind) (payload : Bytes) :
    (kind.encode payload).length = 12 + payload.length := by
  simp only [encode, Bytes.ofInt32, Bytes.ofUInt32, List.length_append, Bytes.length_ofNat]

theorem read_append (kind : BlockKind) {payload : Bytes} (h : payload.length < 2 ^ 63)
    (rest : Bytes) : read (kind.encode payload ++ rest) = .ok ((kind, payload), rest) := by
  have hint : (Int64.ofNat payload.length).toInt = payload.length := Int64.toInt_ofNat_of_lt h
  have hsign : ¬ Int64.ofNat payload.length < 0 := by
    rw [Int64.lt_iff_toInt_lt, hint, Int64.toInt_zero]
    omega
  rw [read, encode]
  dsimp only
  rw [Bytes.ofNat_eq_ofInt64 h, List.append_assoc, List.append_assoc, Reader.int32_append,
    Guarding.lift_eq, Outcome.ok_bind]
  dsimp only
  rw [Reader.int64_append, Guarding.lift_eq, Outcome.ok_bind]
  dsimp only
  rw [ofNumber?_number]
  dsimp only
  rw [if_neg hsign, hint, Int.toNat_natCast, Guarding.demand_eq, Reader.exactly_append]
  rfl

end BlockKind

namespace Metadata

theorem unwrapNames_wrapNames (contentSize : UInt32) {storedSize : UInt32} {packed : Bytes}
    (h : storedSize.toNat = packed.length) :
    unwrapNames (wrapNames contentSize storedSize packed) = Packed.unpack packed := by
  set header : RecordHeader := { compressed := true, contentSize, storedSize }
  have hheader : header.encode.length = Format.headerLength := header.length_encode
  have hlength : (header.encode ++ packed).length = Format.headerLength + storedSize.toNat := by
    rw [List.length_append, hheader, h]
  rw [unwrapNames, wrapNames, RecordHeader.read_append, Guarding.lift_eq, Outcome.ok_bind]
  dsimp only
  -- The packed names reach to the end of the payload.
  rw [Guarding.demand_eq, if_neg (not_lt.mpr hlength.ge), Guarding.demand_eq, ← hlength,
    List.take_length, ← hheader, List.drop_left]
  rfl

/-! ## The search -/

section Search

variable {ε : Type} [Guarding ε] {seen : Seen} {missing : BlockKind} {bytes : Bytes}

theorem searchFrom_of_short (hmissing : seen.complete = .inr missing) (hshort : bytes.length < 4) :
    (searchFrom seen bytes : Except ε (Payloads × Bytes))
      = Guarding.lift (.error (.missingBlock missing)) := by
  rw [searchFrom, hmissing]
  exact if_pos hshort

/-- A block is taken off the front as long as something is still missing. -/
theorem searchFrom_of_missing (hmissing : seen.complete = .inr missing)
    (hlong : 4 ≤ bytes.length) :
    (searchFrom seen bytes : Except ε (Payloads × Bytes))
      = (BlockKind.read bytes : Except ε _) >>= fun (found, rest) =>
          (seen.add found.1 found.2 : Except ε Seen) >>= fun next => searchFrom next rest := by
  rw [searchFrom, hmissing]
  dsimp only
  rw [if_neg (not_lt.mpr hlong)]
  split
  · next error herror => rw [herror, Outcome.error_bind]
  · next kind payload rest hblock => rw [hblock, Outcome.ok_bind]

end Search

theorem scanFrom_of_missing {seen : Seen} {missing : BlockKind} {bytes : Bytes}
    (hmissing : seen.complete = .inr missing) (hlong : 4 ≤ bytes.length) :
    scanFrom seen bytes = BlockKind.read bytes >>= fun (found, rest) =>
      seen.add found.1 found.2 >>= fun next => scanFrom next rest := by
  rw [scanFrom, searchFrom_of_missing hmissing hlong]
  cases BlockKind.read bytes with
  | error error => rfl
  | ok found =>
    obtain ⟨⟨kind, payload⟩, rest⟩ := found
    rw [Outcome.ok_bind, Outcome.ok_bind]
    dsimp only
    cases seen.add kind payload with
    | error error => rfl
    | ok next => rfl

theorem scanFrom_append {seen : Seen} {missing : BlockKind} {kind : BlockKind} {payload : Bytes}
    (hmissing : seen.complete = .inr missing) (hlength : payload.length < 2 ^ 63)
    (rest : Bytes) :
    scanFrom seen (kind.encode payload ++ rest)
      = seen.add kind payload >>= fun next => scanFrom next rest := by
  -- A whole block is longer than its number, so the search goes on.
  have hlong : 4 ≤ (kind.encode payload ++ rest).length := by
    rw [List.length_append, BlockKind.length_encode]
    omega
  rw [scanFrom_of_missing hmissing hlong, BlockKind.read_append kind hlength rest, Outcome.ok_bind]

/-- The payloads of the three blocks as they stand in a written archive. -/
structure Blocks where
  utf16 : Bytes
  utf8 : Bytes
  names : Bytes

namespace Blocks

/-- The blocks one after another. -/
def encode (blocks : Blocks) : Bytes :=
  BlockKind.utf16Index.encode blocks.utf16 ++ (BlockKind.utf8Index.encode blocks.utf8
    ++ BlockKind.names.encode blocks.names)

/-- The lengths of the payloads fit their fields. -/
structure Fits (blocks : Blocks) : Prop where
  utf16 : blocks.utf16.length < 2 ^ 63
  utf8 : blocks.utf8.length < 2 ^ 63
  names : blocks.names.length < 2 ^ 63

theorem length_encode (blocks : Blocks) : blocks.encode.length
    = 36 + blocks.utf16.length + blocks.utf8.length + blocks.names.length := by
  simp only [encode, List.length_append, BlockKind.length_encode]
  omega

end Blocks

/-- The three blocks of a written archive are found, whatever follows them. -/
theorem scan_append {blocks : Blocks} (hfits : blocks.Fits) (rest : Bytes) :
    scan (blocks.encode ++ rest)
      = (unwrapNames blocks.names).map fun names => ⟨blocks.utf16, blocks.utf8, names⟩ := by
  rw [scan, Blocks.encode, List.append_assoc, List.append_assoc, scanFrom_append rfl hfits.utf16,
    Seen.add, Outcome.ok_bind, scanFrom_append rfl hfits.utf8, Seen.add, Outcome.ok_bind,
    scanFrom_append rfl hfits.names, Seen.add]
  cases unwrapNames blocks.names with
  | error error => rfl
  | ok names =>
    rw [Outcome.ok_bind, Except.map]
    show scanFrom ⟨some blocks.utf16, some blocks.utf8, some names⟩ rest = _
    rw [scanFrom, searchFrom]
    rfl

end Metadata

/-! ## Blocks that are cut -/

/-- An error that says that there are too few bytes. -/
inductive ArchiveError.EndsEarly : ArchiveError → Prop
  | endOfStream : EndsEarly .endOfStream
  | missingBlock (kind : BlockKind) : EndsEarly (.missingBlock kind)

theorem BlockKind.stable_read : Reader.Stable read := by
  refine Reader.stable_int32.bind fun number => Reader.stable_int64.bind fun size => ?_
  dsimp only
  cases ofNumber? number with
  | none => exact Reader.stable_error _
  | some kind =>
    exact Reader.Stable.ite (p := size < 0) (fun _ => Reader.stable_error _) fun _ =>
      (Reader.stable_exactly _).bind fun payload => Reader.stable_pure (kind, payload)

/-- A block that is cut meets the end of the bytes. -/
theorem BlockKind.read_take (kind : BlockKind) {payload : Bytes} (h : payload.length < 2 ^ 63)
    {cut : Nat} (hcut : cut < (kind.encode payload).length) :
    read ((kind.encode payload).take cut) = .error .endOfStream := by
  have hwhole := read_append kind h []
  rw [List.append_nil] at hwhole
  exact stable_read.take_of_lt hwhole hcut

namespace Metadata

/-- The search ends early in a block that is cut. -/
theorem endsEarly_scanFrom_take {seen : Seen} {missing : BlockKind} {kind : BlockKind}
    {payload : Bytes} (hmissing : seen.complete = .inr missing)
    (hlength : payload.length < 2 ^ 63) {cut : Nat} (hcut : cut < (kind.encode payload).length) :
    ∃ error, scanFrom seen ((kind.encode payload).take cut) = .error error ∧ error.EndsEarly := by
  have htake : ((kind.encode payload).take cut).length = cut := by
    rw [List.length_take]
    omega
  by_cases hnumber : cut < 4
  · rw [scanFrom, searchFrom_of_short hmissing (by rwa [htake])]
    exact ⟨_, rfl, .missingBlock missing⟩
  · have hlong : 4 ≤ cut := Nat.le_of_not_lt hnumber
    rw [scanFrom_of_missing hmissing (by rwa [htake]),
      BlockKind.read_take kind hlength hcut, Outcome.error_bind]
    exact ⟨_, rfl, .endOfStream⟩

/-- A cut behind a block that the search takes is a cut of what follows. -/
theorem endsEarly_scanFrom_append_take {seen next : Seen} {missing : BlockKind} {kind : BlockKind}
    {payload rest : Bytes} (hmissing : seen.complete = .inr missing)
    (hlength : payload.length < 2 ^ 63) (hadd : seen.add kind payload = .ok next)
    (hrest : ∀ cut < rest.length,
      ∃ error, scanFrom next (rest.take cut) = .error error ∧ error.EndsEarly)
    {cut : Nat} (hcut : cut < (kind.encode payload ++ rest).length) :
    ∃ error, scanFrom seen ((kind.encode payload ++ rest).take cut) = .error error ∧
      error.EndsEarly := by
  rw [List.length_append] at hcut
  rw [List.take_append]
  by_cases hinside : cut < (kind.encode payload).length
  · rw [Nat.sub_eq_zero_of_le hinside.le, List.take_zero, List.append_nil]
    exact endsEarly_scanFrom_take hmissing hlength hinside
  · rw [List.take_of_length_le (Nat.le_of_not_lt hinside), scanFrom_append hmissing hlength, hadd]
    exact hrest _ (by omega)

/-- Wherever the blocks of a written archive are cut, the search for them ends early. -/
theorem endsEarly_scan_take {blocks : Blocks} (hfits : blocks.Fits) {cut : Nat}
    (hcut : cut < blocks.encode.length) :
    ∃ error, scan (blocks.encode.take cut) = .error error ∧ error.EndsEarly := by
  have hnames : ∀ cut < (BlockKind.names.encode blocks.names).length,
      ∃ error, scanFrom ⟨some blocks.utf16, some blocks.utf8, none⟩
        ((BlockKind.names.encode blocks.names).take cut) = .error error ∧ error.EndsEarly :=
    fun cut hcut => endsEarly_scanFrom_take rfl hfits.names hcut
  have hutf8 : ∀ cut < (BlockKind.utf8Index.encode blocks.utf8
        ++ BlockKind.names.encode blocks.names).length,
      ∃ error, scanFrom ⟨some blocks.utf16, none, none⟩
        ((BlockKind.utf8Index.encode blocks.utf8
          ++ BlockKind.names.encode blocks.names).take cut) = .error error ∧ error.EndsEarly :=
    fun cut hcut => endsEarly_scanFrom_append_take rfl hfits.utf8 rfl hnames hcut
  exact endsEarly_scanFrom_append_take rfl hfits.utf16 rfl hutf8 hcut

end Metadata

end HashArchive
