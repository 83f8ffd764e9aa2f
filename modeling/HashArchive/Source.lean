/-
  HashArchive.Source

  Where the bytes of a file are: in memory, plain or packed, or still in the archive
  they were read from.  A lazy reference keeps its record header once it has read it.
-/
import HashArchive.Packed
import HashArchive.Record
import HashArchive.Stream

namespace HashArchive

/-- A record in an archive that is still open, and its header if that has been read. -/
structure LazyRef where
  stream : StreamId
  offset : UInt64
  header? : Option RecordHeader := none
deriving DecidableEq, Repr

/-- Where the bytes of a file are. -/
inductive Source
  | memory (content : Block)
  | packed (data : Block) (contentSize : UInt32)
  | deferred (ref : LazyRef)
deriving DecidableEq, Repr

/-- What a read gives: the answer, and the reader and the stream as they are after it. -/
structure Reading (σ α : Type) where
  answer : Except ArchiveError α
  reader : σ
  stream : Stream

namespace Reading

variable {σ τ α β : Type}

/-- The same reading as part of a larger reader. -/
def lift (wrap : σ → τ) (reading : Reading σ α) : Reading τ α :=
  ⟨reading.answer, wrap reading.reader, reading.stream⟩

/-- Goes on with the answer of a reading that succeeded. -/
def bind (reading : Reading σ α) (next : α → σ → Stream → Reading σ β) : Reading σ β :=
  match reading.answer with
  | .ok a => next a reading.reader reading.stream
  | .error e => ⟨.error e, reading.reader, reading.stream⟩

end Reading

namespace LazyRef

/-- Where the stored bytes begin: right after the header. -/
def dataOffset (ref : LazyRef) : UInt64 := ref.offset + UInt64.ofNat Format.headerLength

/-- The header: the one that is kept, or else the one in the stream, which is kept from
    then on. -/
def readHeader (ref : LazyRef) (stream : Stream) : Reading LazyRef RecordHeader :=
  match ref.header? with
  | some header => ⟨.ok header, ref, stream⟩
  | none =>
    let (bytes, stream) := (stream.seek ref.offset.toNat).read Format.headerLength
    match RecordHeader.read bytes with
    | .ok (header, _) => ⟨.ok header, { ref with header? := some header }, stream⟩
    | .error error => ⟨.error error, ref, stream⟩

/-- The stored bytes, as many as the header says. -/
def readStored (ref : LazyRef) (stream : Stream) : Reading LazyRef Bytes :=
  (ref.readHeader stream).bind fun header ref stream =>
    let (bytes, stream) := (stream.seek ref.dataOffset.toNat).read header.storedSize.toNat
    -- The size in the header is not trusted until the bytes are there.
    if bytes.length < header.storedSize.toNat then
      ⟨.error .endOfStream, ref, stream⟩
    else
      ⟨.ok bytes, ref, stream⟩

end LazyRef

namespace Source

/-- Plain bytes in memory. -/
abbrev ofBytes (content : Bytes) : Source := memory (.ofBytes content)

/-- The size of an entry as the format's 32-bit field. -/
def sizeField (size : Nat) : Except ArchiveError UInt32 :=
  if size < UInt32.size then .ok (UInt32.ofNat size) else .error (.tooLong size)

/-! ## Reads through the cursor -/

/-- The header that the stored bytes have. -/
def readHeader (source : Source) (stream : Stream) : Reading Source RecordHeader :=
  match source with
  | memory content =>
    let answer := do
      let size ← sizeField content.size
      return { compressed := false, contentSize := size, storedSize := size }
    ⟨answer, source, stream⟩
  | packed data contentSize =>
    let answer := do
      let size ← sizeField data.size
      return { compressed := true, contentSize, storedSize := size }
    ⟨answer, source, stream⟩
  | deferred ref => (ref.readHeader stream).lift deferred

/-- The bytes as they are stored, packed or not. -/
def readStored (source : Source) (stream : Stream) : Reading Source Bytes :=
  match source with
  | memory content => ⟨.ok content.bytes, source, stream⟩
  | packed data _ => ⟨.ok data.bytes, source, stream⟩
  | deferred ref => (ref.readStored stream).lift deferred

/-- The content of stored bytes with the given header. -/
def contentOf (header : RecordHeader) (stored : Bytes) : Except ArchiveError Bytes :=
  if header.compressed then Packed.unpack stored else .ok stored

/-- The content. -/
def readContent (source : Source) (stream : Stream) : Reading Source Bytes :=
  (source.readHeader stream).bind fun header source stream =>
    (source.readStored stream).bind fun stored source stream =>
      ⟨contentOf header stored, source, stream⟩

/-- The source in memory of stored bytes with the given header. -/
def ofStored (header : RecordHeader) (stored : Bytes) : Source :=
  if header.compressed then packed (.ofBytes stored) header.contentSize else ofBytes stored

/-- A source in memory with the same stored bytes. -/
def readDetached (source : Source) (stream : Stream) : Reading Source Source :=
  match source with
  | deferred _ =>
    (source.readHeader stream).bind fun header source stream =>
      (source.readStored stream).bind fun stored source stream =>
        ⟨.ok (ofStored header stored), source, stream⟩
  | _ => ⟨.ok source, source, stream⟩

/-! ## Reads from the open streams -/

/-- The stream that a source reads from; one in memory reads from none. -/
def streamIn (streams : Streams) : Source → Stream
  | deferred ref => streams ref.stream
  | _ => { bytes := [] }

/-- The header that the stored bytes have. -/
def header (streams : Streams) (source : Source) : Except ArchiveError RecordHeader :=
  (source.readHeader (source.streamIn streams)).answer

/-- The bytes as they are stored, packed or not. -/
def stored (streams : Streams) (source : Source) : Except ArchiveError Bytes :=
  (source.readStored (source.streamIn streams)).answer

/-- The content. -/
def content (streams : Streams) (source : Source) : Except ArchiveError Bytes :=
  (source.readContent (source.streamIn streams)).answer

/-- A source in memory with the same stored bytes. -/
def detached (streams : Streams) (source : Source) : Except ArchiveError Source :=
  (source.readDetached (source.streamIn streams)).answer

/-- The source after any read: a lazy one keeps its header if there is one to read. -/
def settled (streams : Streams) (source : Source) : Source :=
  (source.readHeader (source.streamIn streams)).reader

end Source

end HashArchive
