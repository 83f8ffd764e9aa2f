/-
  HashArchive.Proofs.Source

  What the reads of a source answer, as functions of the bytes of its stream.  A read moves
  the cursor and may keep a header, and neither changes what the next read answers, so the
  content is what the header says of the stored bytes (`content_eq`).
-/
import Mathlib
import HashArchive.Proofs.Reader
import HashArchive.Source

namespace HashArchive

namespace Reading

variable {σ τ α β : Type}

theorem answer_bind (reading : Reading σ α) (next : α → σ → Stream → Reading σ β) :
    (reading.bind next).answer
      = reading.answer >>= fun a => (next a reading.reader reading.stream).answer := by
  rw [bind]
  cases reading.answer <;> rfl

end Reading

namespace LazyRef

/-- The header: the one that is kept, or else the one in the bytes. -/
def headerIn (ref : LazyRef) (bytes : Bytes) : Except ArchiveError RecordHeader :=
  match ref.header? with
  | some header => .ok header
  | none =>
    (RecordHeader.read ((bytes.drop ref.offset.toNat).take Format.headerLength)).map Prod.fst

/-- The stored bytes that a header says there are. -/
def storedIn (ref : LazyRef) (bytes : Bytes) (header : RecordHeader) : Except ArchiveError Bytes :=
  let found := (bytes.drop ref.dataOffset.toNat).take header.storedSize.toNat
  if found.length < header.storedSize.toNat then .error .endOfStream else .ok found

variable (ref : LazyRef) (stream : Stream)

/-- A read of the header answers what the bytes say, leaves the bytes, and keeps what it
    found. -/
theorem readHeader_spec :
    (ref.readHeader stream).answer = ref.headerIn stream.bytes ∧
      (ref.readHeader stream).stream.bytes = stream.bytes ∧
      (ref.readHeader stream).reader.dataOffset = ref.dataOffset ∧
      ∀ header, ref.headerIn stream.bytes = .ok header →
        (ref.readHeader stream).reader.headerIn stream.bytes = .ok header := by
  obtain ⟨id, offset, kept⟩ := ref
  cases kept with
  | some header => exact ⟨rfl, rfl, rfl, fun _ h => h⟩
  | none =>
    rw [readHeader, headerIn]
    dsimp only
    rw [Stream.read_seek]
    cases hread : RecordHeader.read ((stream.bytes.drop offset.toNat).take Format.headerLength) with
    | error error => exact ⟨rfl, rfl, rfl, fun header h => by cases h⟩
    | ok read => exact ⟨rfl, rfl, rfl, fun header h => h⟩

theorem answer_readStored :
    (ref.readStored stream).answer = ref.headerIn stream.bytes >>= ref.storedIn stream.bytes := by
  obtain ⟨hanswer, hbytes, hoffset, -⟩ := readHeader_spec ref stream
  rw [readStored, Reading.answer_bind, hanswer]
  refine congrArg (ref.headerIn stream.bytes >>= ·) (funext fun header => ?_)
  dsimp only
  rw [Stream.read_seek, hbytes, hoffset, storedIn]
  split <;> rfl

theorem length_of_storedIn {bytes stored : Bytes} {header : RecordHeader}
    (h : ref.storedIn bytes header = .ok stored) : stored.length = header.storedSize.toNat := by
  rw [storedIn] at h
  split at h
  · cases h
  · next hlong =>
    obtain rfl := Except.ok.inj h
    exact le_antisymm (List.length_take_le _ _) (not_lt.mp hlong)

end LazyRef

namespace Source

variable (streams : Streams) (source : Source)

theorem header_deferred (ref : LazyRef) :
    (deferred ref).header streams = ref.headerIn (streams ref.stream).bytes :=
  (ref.readHeader_spec (streams ref.stream)).1

theorem stored_deferred (ref : LazyRef) :
    (deferred ref).stored streams = ref.headerIn (streams ref.stream).bytes >>=
      ref.storedIn (streams ref.stream).bytes :=
  ref.answer_readStored (streams ref.stream)

/-- A read of the header and then of the stored bytes answers from both. -/
theorem answer_readHeader_readStored {α : Type} (f : RecordHeader → Bytes → Except ArchiveError α) :
    ((source.readHeader (source.streamIn streams)).bind fun header source stream =>
        (source.readStored stream).bind fun stored source stream =>
          ⟨f header stored, source, stream⟩).answer
      = source.header streams >>= fun header => source.stored streams >>= f header := by
  rw [Reading.answer_bind]
  simp only [Reading.answer_bind]
  cases source with
  | memory content => rfl
  | packed data contentSize => rfl
  | deferred ref =>
    obtain ⟨hanswer, hbytes, hoffset, hkept⟩ := ref.readHeader_spec (streams ref.stream)
    rw [header_deferred, stored_deferred]
    show (ref.readHeader (streams ref.stream)).answer >>= _ = _
    rw [hanswer]
    cases hheader : ref.headerIn (streams ref.stream).bytes with
    | error error => rfl
    | ok header =>
      show ((ref.readHeader (streams ref.stream)).reader.readStored
        (ref.readHeader (streams ref.stream)).stream).answer >>= f header = _
      rw [LazyRef.answer_readStored, hbytes, hkept header hheader]
      have hstored : (ref.readHeader (streams ref.stream)).reader.storedIn
          (streams ref.stream).bytes header = ref.storedIn (streams ref.stream).bytes header := by
        rw [LazyRef.storedIn, hoffset, LazyRef.storedIn]
      rw [Outcome.ok_bind, Outcome.ok_bind, Outcome.ok_bind, hstored]

/-- The content is what the header says of the stored bytes. -/
theorem content_eq :
    source.content streams
      = source.header streams >>= fun header => source.stored streams >>= contentOf header :=
  source.answer_readHeader_readStored streams contentOf

/-- A lazy source is detached with the bytes that are stored. -/
theorem detached_deferred (ref : LazyRef) :
    (deferred ref).detached streams = (deferred ref).header streams >>= fun header =>
      (deferred ref).stored streams >>= fun stored =>
        .ok (ofStored header stored) :=
  (deferred ref).answer_readHeader_readStored streams fun header stored =>
    .ok (ofStored header stored)

variable {streams source}

/-- As many bytes are stored as a 32-bit field says, so their number fits such a field. -/
theorem sizeField_of_stored {ref : LazyRef} {header : RecordHeader} {stored : Bytes}
    (hheader : (deferred ref).header streams = .ok header)
    (hstored : (deferred ref).stored streams = .ok stored) :
    sizeField stored.length = .ok header.storedSize := by
  rw [header_deferred] at hheader
  rw [stored_deferred, hheader, Outcome.ok_bind] at hstored
  rw [sizeField, ref.length_of_storedIn hstored, if_pos header.storedSize.toNat_lt,
    UInt32.ofNat_toNat]

/-- A copy of a lazy source is what its header and its stored bytes make. -/
theorem exists_of_detached_deferred {ref : LazyRef} {detached : Source}
    (h : (deferred ref).detached streams = .ok detached) :
    ∃ header stored, (deferred ref).header streams = .ok header ∧
      (deferred ref).stored streams = .ok stored ∧
      detached = ofStored header stored := by
  rw [detached_deferred] at h
  obtain ⟨header, hheader, h⟩ := Outcome.bind_eq_ok_iff.mp h
  obtain ⟨stored, hstored, h⟩ := Outcome.bind_eq_ok_iff.mp h
  exact ⟨header, stored, hheader, hstored, (Except.ok.inj h).symm⟩

theorem header_memory {content : Bytes} {size : UInt32}
    (h : sizeField content.length = .ok size) :
    (ofBytes content).header streams
      = .ok { compressed := false, contentSize := size, storedSize := size } := by
  show (sizeField content.length >>= _) = _
  rw [h]
  rfl

/-- Bytes in memory are read if a 32-bit field can tell how many they are. -/
theorem content_memory (streams : Streams) (data : Bytes) :
    (ofBytes data).content streams
      = if data.length < UInt32.size then .ok data else .error (.tooLong data.length) := by
  rw [content_eq]
  split
  · next hfits =>
    have hsize : sizeField data.length = .ok (UInt32.ofNat data.length) := if_pos hfits
    rw [header_memory hsize]
    rfl
  · next hlong =>
    have hsize : sizeField data.length = .error (.tooLong data.length) := if_neg hlong
    show (sizeField data.length >>= _) >>= _ = _
    rw [hsize]
    rfl

theorem header_packed {data : Bytes} {contentSize size : UInt32}
    (h : sizeField data.length = .ok size) :
    (packed (.ofBytes data) contentSize).header streams
      = .ok { compressed := true, contentSize, storedSize := size } := by
  show (sizeField data.length >>= _) = _
  rw [h]
  rfl

/-- A source that has been detached has the same content, whatever streams are open. -/
theorem content_of_detached {detached : Source} (h : source.detached streams = .ok detached)
    (others : Streams) : detached.content others = source.content streams := by
  cases source with
  | memory content =>
    obtain rfl := Except.ok.inj h
    rfl
  | packed data contentSize =>
    obtain rfl := Except.ok.inj h
    rfl
  | deferred ref =>
    obtain ⟨header, stored, hheader, hstored, rfl⟩ := exists_of_detached_deferred h
    have hsize := sizeField_of_stored hheader hstored
    rw [content_eq streams, hheader, Outcome.ok_bind, hstored, Outcome.ok_bind, content_eq others,
      ofStored]
    split
    · next hcompressed =>
      rw [header_packed hsize, Outcome.ok_bind, contentOf, if_pos hcompressed]
      rfl
    · next hplain =>
      rw [header_memory hsize, Outcome.ok_bind, contentOf, if_neg hplain]
      rfl

end Source

end HashArchive
