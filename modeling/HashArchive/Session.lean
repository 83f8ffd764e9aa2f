/-
  HashArchive.Session

  Several content sources that share one stream and its cursor, and the reads made
  through them one after another.
-/
import HashArchive.Source

namespace HashArchive

/-- The shared stream and the sources, which are known by their places in the list. -/
structure Session where
  stream : Stream
  sources : List Source

namespace Session

/-- What can be asked of a session; sources are named by their places. -/
inductive Request
  | header (source : Nat)
  | stored (source : Nat)
  | content (source : Nat)
  /-- Adds a copy of the source. -/
  | copy (source : Nat)
  /-- Adds a source in memory with the same stored bytes. -/
  | detach (source : Nat)
  /-- Replaces the bytes of the stream. -/
  | replace (bytes : Bytes)
deriving Repr

/-- What a session replies. -/
inductive Reply
  | header (header : RecordHeader)
  | bytes (bytes : Bytes)
  | added (source : Source)
  | failed (error : ArchiveError)
  | done
deriving DecidableEq, Repr

/-- Makes a read through a source; the source and the stream stay as the read leaves
    them. -/
def read {α : Type} (session : Session) (place : Nat)
    (operation : Source → Stream → Reading Source α) : Option (Except ArchiveError α × Session) :=
  (session.sources[place]?).map fun source =>
    let reading := operation source session.stream
    (reading.answer, ⟨reading.stream, session.sources.set place reading.reader⟩)

/-- The reply to a read that gave an answer. -/
def reply {α : Type} (encode : α → Reply) : Except ArchiveError α → Reply
  | .ok a => encode a
  | .error error => .failed error

/-- One request; none when it names no source. -/
def step? (session : Session) : Request → Option (Reply × Session)
  | .header place => (session.read place Source.readHeader).map fun (a, s) => (reply .header a, s)
  | .stored place => (session.read place Source.readStored).map fun (a, s) => (reply .bytes a, s)
  | .content place => (session.read place Source.readContent).map fun (a, s) => (reply .bytes a, s)
  | .copy place =>
    (session.sources[place]?).map fun source =>
      (.added source, { session with sources := session.sources ++ [source] })
  | .detach place =>
    (session.read place Source.readDetached).map fun
      | (.ok source, s) => (.added source, { s with sources := s.sources ++ [source] })
      | (.error error, s) => (.failed error, s)
  | .replace bytes =>
    some (.done, { session with stream := { session.stream with bytes } })

end Session

end HashArchive
