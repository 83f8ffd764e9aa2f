/-
  HashArchive.Record

  The header that stands before each stored file and before the name table.
-/
import HashArchive.Reader

namespace HashArchive

/-- What is known of stored bytes: whether they are deflated, how many bytes they hold,
    and how many they are. -/
structure RecordHeader where
  compressed : Bool
  contentSize : UInt32
  storedSize : UInt32
deriving DecidableEq, Repr, Inhabited

namespace RecordHeader

/-- The header as bytes; the second field is unused. -/
def encode (header : RecordHeader) : Bytes :=
  Bytes.ofUInt32 (if header.compressed then 1 else 0) ++ Bytes.ofUInt32 0
    ++ Bytes.ofUInt32 header.contentSize ++ Bytes.ofUInt32 header.storedSize

/-- Takes a header off the front; only a first field of one means compressed. -/
def read : Reader RecordHeader := fun bytes => do
  let (flag, bytes) ← Reader.uint32 bytes
  let (_, bytes) ← Reader.uint32 bytes
  let (contentSize, bytes) ← Reader.uint32 bytes
  let (storedSize, bytes) ← Reader.uint32 bytes
  return ({ compressed := flag == 1, contentSize, storedSize }, bytes)

@[simp] theorem length_encode (header : RecordHeader) :
    header.encode.length = Format.headerLength := by
  simp [encode, Bytes.ofUInt32, Format.headerLength]

end RecordHeader

end HashArchive
