/-
  HashArchive.Policy

  The settings of an archive: how new files are keyed, and which files are deflated
  when the archive is written.
-/
import HashArchive.Glob

namespace HashArchive

/-- The settings of an archive. -/
structure Policy where
  /-- Files are keyed by their whole location, so that files of one name can be kept
      side by side in a directory. -/
  keepDuplicates : Bool := false
  /-- Files whose names match one of these globs are deflated. -/
  compressGlobs : List String := []
deriving DecidableEq, Repr

namespace Policy

/-- Whether a file of this name is to be deflated. -/
def compresses (policy : Policy) (name : String) : Bool :=
  policy.compressGlobs.any fun glob => (Glob.ofString glob).matches? name

end Policy

end HashArchive
