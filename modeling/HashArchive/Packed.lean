/-
  HashArchive.Packed

  Deflated data as archives store it: two bytes that no reader looks at, then the
  stream without a checksum.
-/
import HashArchive.Deflate.Inflate
import HashArchive.Deflate.Store
import HashArchive.Error

namespace HashArchive.Packed

/-- The two bytes before every stream that is written. -/
def marker : Bytes := [0x78, 0x5E]

/-- The packed form of a content, by any encoder that makes streams. -/
def pack (content : Bytes) (deflate : Bytes → Bytes := Deflate.store) : Bytes :=
  marker ++ deflate content

/-- The content of packed bytes. -/
def unpack (packed : Bytes) : Except ArchiveError Bytes :=
  match packed with
  | _ :: _ :: stream => (Deflate.inflate stream).mapError .inflate
  | _ => .error (.inflate .tooShort)

/-- An unpacked content, and whether it is as long as was declared. -/
structure Unpacked where
  content : Bytes
  asDeclared : Bool
deriving DecidableEq, Repr

/-- The content of packed bytes, with a look at the size that was declared for it: a wrong size is
    noted and nothing more. -/
def unpackDeclared (packed : Bytes) (size : UInt32) : Except ArchiveError Unpacked := do
  let content ← unpack packed
  return { content, asDeclared := content.length = size.toNat }

end HashArchive.Packed
