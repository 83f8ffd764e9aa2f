/-
  HashArchive.Proofs.Slices

  The reads of a source as slices of the bytes of its stream.  A lazy reference is a place
  and a header that it may keep.  What a read answers and what the reference keeps after it
  are functions of the bytes, so the cursor and the 64-bit addresses do not show in them
  (`Source.readContent_gives` and the lemmas beside it).
-/
import Mathlib
import HashArchive.Proofs.Reader
import HashArchive.Source

namespace HashArchive

/-! ## Slices -/

namespace Bytes

/-- The bytes from a place on, as many as asked for, when they are all there. -/
def slice? (bytes : Bytes) (start length : Nat) : Option Bytes :=
  (split? length (bytes.drop start)).map Prod.fst

variable {bytes : Bytes} {start length : Nat}

theorem slice?_eq_some_iff {slice : Bytes} :
    bytes.slice? start length = some slice ↔ slice <+: bytes.drop start ∧ slice.length = length := by
  rw [slice?, Option.map_eq_some_iff]
  constructor
  · rintro ⟨⟨front, rest⟩, hsplit, rfl⟩
    obtain ⟨hdrop, hlength⟩ := split?_eq_some_iff.mp hsplit
    exact ⟨⟨rest, hdrop.symm⟩, hlength⟩
  · rintro ⟨⟨rest, hdrop⟩, hlength⟩
    exact ⟨(slice, rest), split?_eq_some_iff.mpr ⟨hdrop.symm, hlength⟩, rfl⟩

/-- A slice is missing when its last byte would lie past the end. -/
theorem slice?_eq_none_iff : bytes.slice? start length = none ↔ bytes.length - start < length := by
  rw [slice?, Option.map_eq_none_iff, split?_eq_none_iff, List.length_drop]

/-- What a read through a cursor finds, when it is all there. -/
theorem slice?_eq_ite : bytes.slice? start length
    = if ((bytes.drop start).take length).length < length then none
      else some ((bytes.drop start).take length) := by
  by_cases h : ((bytes.drop start).take length).length < length
  · rw [if_pos h, slice?_eq_none_iff]
    rw [List.length_take, List.length_drop] at h
    omega
  · rw [if_neg h, slice?_eq_some_iff]
    refine ⟨List.take_prefix _ _, ?_⟩
    have hle := List.length_take_le length (bytes.drop start)
    omega

end Bytes

/-! ## Lazy references -/

namespace LazyRef

variable (ref : LazyRef) (bytes : Bytes)

/-- The header: the one that is kept, or else what the bytes at the place spell. -/
def headerAt : Except ArchiveError RecordHeader :=
  match ref.header? with
  | some header => .ok header
  | none =>
    match bytes.slice? ref.offset.toNat Format.headerLength with
    | some field => .ok (RecordHeader.ofField field)
    | none => .error .endOfStream

/-- The stored bytes: those behind the header's place, as many as the header says. -/
def storedAt : Except ArchiveError Bytes := do
  let header ← ref.headerAt bytes
  match bytes.slice? (ref.offset.toNat + Format.headerLength) header.storedSize.toNat with
  | some stored => .ok stored
  | none => .error .endOfStream

/-- The reference after a read: it keeps its header if there is one to read. -/
def frozen : LazyRef := { ref with header? := (ref.headerAt bytes).toOption }

/-- Where a header is kept, the place behind it has an address. -/
def Fits : Prop := ref.header?.isSome → ref.offset.toNat + Format.headerLength < 2 ^ 64

@[simp] theorem headerAt_frozen : (ref.frozen bytes).headerAt bytes = ref.headerAt bytes := by
  cases hheader : ref.headerAt bytes with
  | ok header =>
    rw [frozen, headerAt, hheader]
    rfl
  | error error =>
    -- Nothing is kept, and nothing was: the reference is as before.
    have hkept : ref.header? = none := by
      cases hkept : ref.header? with
      | none => rfl
      | some header =>
        rw [headerAt, hkept] at hheader
        cases hheader
    have hsame : ref.frozen bytes = ref := by
      rw [frozen, hheader, Except.toOption, ← hkept]
    rw [hsame, hheader]

@[simp] theorem frozen_frozen : (ref.frozen bytes).frozen bytes = ref.frozen bytes := by
  rw [frozen, headerAt_frozen]
  rfl

@[simp] theorem storedAt_frozen : (ref.frozen bytes).storedAt bytes = ref.storedAt bytes := by
  rw [storedAt, headerAt_frozen]
  rfl

variable {ref bytes}

/-- A header can only be read where the place behind it has an address. -/
theorem Fits.lt_of_headerAt (hfits : ref.Fits) (hbytes : bytes.length < 2 ^ 64)
    {header : RecordHeader} (h : ref.headerAt bytes = .ok header) :
    ref.offset.toNat + Format.headerLength < 2 ^ 64 := by
  rw [headerAt] at h
  split at h
  · next kept hkept => exact hfits (by rw [hkept, Option.isSome_some])
  · split at h
    · next field hfield =>
      -- The header lies before the end of the bytes.
      obtain ⟨hbegins, hlength⟩ := Bytes.slice?_eq_some_iff.mp hfield
      have hle := hbegins.length_le
      rw [hlength, List.length_drop, Format.headerLength] at hle
      rw [Format.headerLength]
      omega
    · cases h

theorem Fits.frozen (hfits : ref.Fits) (hbytes : bytes.length < 2 ^ 64) :
    (ref.frozen bytes).Fits := by
  intro hsome
  obtain ⟨header, hheader⟩ := Option.isSome_iff_exists.mp hsome
  cases hread : ref.headerAt bytes with
  | ok found => exact hfits.lt_of_headerAt hbytes hread
  | error error =>
    rw [LazyRef.frozen, hread] at hheader
    cases hheader

/-- The address behind a header is reached without going round. -/
theorem toNat_dataOffset (h : ref.offset.toNat + Format.headerLength < 2 ^ 64) :
    ref.dataOffset.toNat = ref.offset.toNat + Format.headerLength := by
  rw [dataOffset, UInt64.toNat_add]
  exact Nat.mod_eq_of_lt h

end LazyRef

/-! ## Sources -/

namespace Source

/-- The header that the stored bytes have. -/
def headerAt (bytes : Bytes) : Source → Except ArchiveError RecordHeader
  | memory content => (sizeField content.bytes.length).map fun size =>
      { compressed := false, contentSize := size, storedSize := size }
  | packed data contentSize => (sizeField data.bytes.length).map fun size =>
      { compressed := true, contentSize, storedSize := size }
  | deferred ref => ref.headerAt bytes

/-- The bytes as they are stored, packed or not. -/
def storedAt (bytes : Bytes) : Source → Except ArchiveError Bytes
  | memory content => .ok content.bytes
  | packed data _ => .ok data.bytes
  | deferred ref => ref.storedAt bytes

/-- The content. -/
def contentAt (bytes : Bytes) (source : Source) : Except ArchiveError Bytes := do
  let header ← source.headerAt bytes
  let stored ← source.storedAt bytes
  contentOf header stored

/-- A source in memory with the same stored bytes. -/
def detachedAt (bytes : Bytes) (source : Source) : Except ArchiveError Source :=
  match source with
  | deferred _ => do
    let header ← source.headerAt bytes
    let stored ← source.storedAt bytes
    return ofStored header stored
  | _ => .ok source

/-- The source after a read. -/
def frozen (bytes : Bytes) : Source → Source
  | deferred ref => deferred (ref.frozen bytes)
  | source => source

/-- Where a header is kept, the place behind it has an address. -/
def Fits : Source → Prop
  | deferred ref => ref.Fits
  | _ => True

variable {bytes : Bytes} {source : Source}

theorem headerAt_frozen : (source.frozen bytes).headerAt bytes = source.headerAt bytes := by
  cases source with
  | deferred ref => exact ref.headerAt_frozen bytes
  | _ => rfl

theorem storedAt_frozen : (source.frozen bytes).storedAt bytes = source.storedAt bytes := by
  cases source with
  | deferred ref => exact ref.storedAt_frozen bytes
  | _ => rfl

theorem frozen_frozen : (source.frozen bytes).frozen bytes = source.frozen bytes := by
  cases source with
  | deferred ref => exact congrArg deferred (ref.frozen_frozen bytes)
  | _ => rfl

theorem Fits.frozen (hfits : source.Fits) (hbytes : bytes.length < 2 ^ 64) :
    (source.frozen bytes).Fits := by
  cases source with
  | deferred ref => exact LazyRef.Fits.frozen hfits hbytes
  | _ => trivial

/-- What is copied into memory has no address to keep. -/
theorem Fits.of_detachedAt (hfits : source.Fits) {detached : Source}
    (h : source.detachedAt bytes = .ok detached) : detached.Fits := by
  cases source with
  | deferred ref =>
    obtain ⟨header, -, h⟩ := Outcome.bind_eq_ok_iff.mp h
    obtain ⟨stored, -, h⟩ := Outcome.bind_eq_ok_iff.mp h
    obtain rfl := Except.ok.inj h
    rw [ofStored]
    split <;> trivial
  | memory content =>
    obtain rfl := Except.ok.inj h
    trivial
  | packed data contentSize =>
    obtain rfl := Except.ok.inj h
    trivial

end Source

/-! ## What reads come to -/

namespace Reading

variable {σ τ α β : Type}

/-- What a reading comes to: its answer, its reader, and the bytes of its stream. -/
structure Gives (reading : Reading σ α) (answer : Except ArchiveError α) (reader : σ)
    (bytes : Bytes) : Prop where
  answer : reading.answer = answer
  reader : reading.reader = reader
  bytes : reading.stream.bytes = bytes

variable {reading : Reading σ α} {answer : Except ArchiveError α} {reader : σ} {bytes : Bytes}

theorem Gives.lift (h : reading.Gives answer reader bytes) (wrap : σ → τ) :
    (reading.lift wrap).Gives answer (wrap reader) bytes :=
  ⟨h.answer, congrArg wrap h.reader, h.bytes⟩

/-- A reading that goes on with a reader that reads leave as it is. -/
theorem Gives.bind (h : reading.Gives answer reader bytes)
    {next : α → σ → Stream → Reading σ β} {rest : α → Except ArchiveError β}
    (hnext : ∀ a stream, answer = .ok a → stream.bytes = bytes →
      (next a reader stream).Gives (rest a) reader bytes) :
    (reading.bind next).Gives (answer >>= rest) reader bytes := by
  obtain ⟨hanswer, hreader, hbytes⟩ := h
  rw [Reading.bind, hanswer]
  cases answer with
  | error error => exact ⟨rfl, hreader, hbytes⟩
  | ok a =>
    rw [hreader, Outcome.ok_bind]
    exact hnext a reading.stream rfl hbytes

end Reading

namespace LazyRef

variable {ref : LazyRef} {stream : Stream}

theorem readHeader_gives : (ref.readHeader stream).Gives (ref.headerAt stream.bytes)
    (ref.frozen stream.bytes) stream.bytes := by
  obtain ⟨id, offset, kept⟩ := ref
  cases kept with
  | some header => exact ⟨rfl, rfl, rfl⟩
  | none =>
    rw [frozen, headerAt, readHeader]
    dsimp only
    rw [Stream.read_seek, Bytes.slice?_eq_ite]
    by_cases h : ((stream.bytes.drop offset.toNat).take Format.headerLength).length
        < Format.headerLength
    · rw [if_pos h, RecordHeader.read_of_length_lt h]
      exact ⟨rfl, rfl, rfl⟩
    · -- Exactly the sixteen bytes were read, so the header takes them all.
      rw [if_neg h, RecordHeader.read_of_le (Nat.le_of_not_lt h), List.take_take, Nat.min_self]
      exact ⟨rfl, rfl, rfl⟩

theorem readStored_gives (hfits : ref.Fits) (hbytes : stream.bytes.length < 2 ^ 64) :
    (ref.readStored stream).Gives (ref.storedAt stream.bytes) (ref.frozen stream.bytes)
      stream.bytes := by
  rw [readStored, storedAt]
  refine readHeader_gives.bind fun header after hheader hafter => ?_
  have haddress := toNat_dataOffset (hfits.lt_of_headerAt hbytes hheader)
  have hsame : (ref.frozen stream.bytes).dataOffset = ref.dataOffset := rfl
  dsimp only
  rw [Stream.read_seek, hafter, hsame, haddress, Bytes.slice?_eq_ite]
  split
  · exact ⟨rfl, rfl, hafter⟩
  · exact ⟨rfl, rfl, hafter⟩

end LazyRef

namespace Source

variable {source : Source} {stream : Stream}

theorem readHeader_gives : (source.readHeader stream).Gives (source.headerAt stream.bytes)
    (source.frozen stream.bytes) stream.bytes := by
  cases source with
  | memory content => exact ⟨by cases sizeField content.size <;> rfl, rfl, rfl⟩
  | packed data contentSize => exact ⟨by cases sizeField data.size <;> rfl, rfl, rfl⟩
  | deferred ref => exact LazyRef.readHeader_gives.lift deferred

theorem readStored_gives (hfits : source.Fits) (hbytes : stream.bytes.length < 2 ^ 64) :
    (source.readStored stream).Gives (source.storedAt stream.bytes)
      (source.frozen stream.bytes) stream.bytes := by
  cases source with
  | memory content => exact ⟨rfl, rfl, rfl⟩
  | packed data contentSize => exact ⟨rfl, rfl, rfl⟩
  | deferred ref => exact (LazyRef.readStored_gives hfits hbytes).lift deferred

/-- The stored bytes once the header has been read: the source is the one it was frozen to. -/
theorem readStored_frozen_gives (hfits : source.Fits) (hbytes : stream.bytes.length < 2 ^ 64)
    {after : Stream} (hafter : after.bytes = stream.bytes) :
    ((source.frozen stream.bytes).readStored after).Gives (source.storedAt stream.bytes)
      (source.frozen stream.bytes) stream.bytes := by
  have h := readStored_gives (hfits.frozen hbytes) (hafter ▸ hbytes : after.bytes.length < 2 ^ 64)
  rwa [hafter, storedAt_frozen, frozen_frozen] at h

theorem readContent_gives (hfits : source.Fits) (hbytes : stream.bytes.length < 2 ^ 64) :
    (source.readContent stream).Gives (source.contentAt stream.bytes)
      (source.frozen stream.bytes) stream.bytes := by
  rw [readContent, contentAt]
  refine readHeader_gives.bind fun header after _ hafter => ?_
  refine (readStored_frozen_gives hfits hbytes hafter).bind fun stored last _ hlast => ?_
  exact ⟨rfl, rfl, hlast⟩

theorem readDetached_gives (hfits : source.Fits) (hbytes : stream.bytes.length < 2 ^ 64) :
    (source.readDetached stream).Gives (source.detachedAt stream.bytes)
      (source.frozen stream.bytes) stream.bytes := by
  cases source with
  | memory content => exact ⟨rfl, rfl, rfl⟩
  | packed data contentSize => exact ⟨rfl, rfl, rfl⟩
  | deferred ref =>
    rw [readDetached, detachedAt]
    refine readHeader_gives.bind fun header after _ hafter => ?_
    refine (readStored_frozen_gives hfits hbytes hafter).bind fun stored last _ hlast => ?_
    exact ⟨rfl, rfl, hlast⟩

end Source

end HashArchive
