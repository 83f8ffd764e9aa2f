/-
  HashArchive.Deflate.Fault

  What can be wrong with deflated data.
-/

namespace HashArchive.Deflate

/-- The first thing that is wrong with deflated data, in the order of its bits. -/
inductive Fault
  /-- There are fewer bytes than the two before every stream. -/
  | tooShort
  /-- The data ends before the final block does. -/
  | truncated
  /-- The bits read so far begin no stream. -/
  | malformed
deriving DecidableEq, Repr

namespace Fault

/-- The fault in words. -/
def message : Fault → String
  | tooShort => "compressed data shorter than its prefix"
  | truncated => "incomplete deflate stream"
  | malformed => "corrupt deflate stream"

end Fault

end HashArchive.Deflate
