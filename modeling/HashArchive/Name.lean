/-
  HashArchive.Name

  What names are known by: a case-blind key in each of two encodings, a
  case-sensitive key for whole locations, and the order in which siblings are
  listed.
-/
import HashArchive.Digest
import HashArchive.Text.Lowercase
import HashArchive.Text.Utf16

namespace HashArchive

/-- The encodings by which the two indexes of an archive are keyed. -/
inductive Encoding
  | utf16
  | utf8
deriving DecidableEq, Repr

namespace Encoding

/-- The bytes of a text in the encoding. -/
def bytes (text : String) : Encoding → Bytes
  | utf16 => Text.Utf16.toBytes (Text.Utf16.encode text.toList)
  | utf8 => text.toList.flatMap String.utf8EncodeChar

end Encoding

namespace Name

/-- The case-blind key of a name: the digest of its lower-case form. -/
def key (encoding : Encoding) (name : String) : UInt64 :=
  Digest.ofBytes (encoding.bytes (Text.lowercase name))

/-- The case-sensitive key of a location. -/
def locationKey (location : String) : UInt64 := Digest.ofBytes (Encoding.utf16.bytes location)

/-- Siblings are listed by their lower-case names, and those that agree in them by the
    names themselves. -/
def before (a b : String) : Bool :=
  let lowerA := Text.lowercase a
  let lowerB := Text.lowercase b
  lowerA < lowerB || (lowerA == lowerB && a < b)

end Name

end HashArchive
