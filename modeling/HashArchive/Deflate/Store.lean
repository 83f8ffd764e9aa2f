/-
  HashArchive.Deflate.Store

  A stream for any content, made of stored blocks: every block but the last is full,
  so the content can be cut anywhere without a choice.
-/
import HashArchive.Bytes

namespace HashArchive.Deflate

/-- The most bytes that one stored block can hold. -/
def storedLimit : Nat := 0xFFFF

/-- One stored block. -/
def storedBlock (final : Bool) (content : Bytes) : Bytes :=
  UInt8.ofNat final.toNat :: Bytes.ofNat 2 content.length
    ++ Bytes.ofNat 2 (0xFFFF - content.length) ++ content

/-- The stream of a content. -/
def store (content : Bytes) : Bytes :=
  if storedLimit < content.length then
    storedBlock false (content.take storedLimit) ++ store (content.drop storedLimit)
  else
    storedBlock true content
termination_by content.length
decreasing_by
  rw [List.length_drop]
  unfold storedLimit at *
  omega

end HashArchive.Deflate
