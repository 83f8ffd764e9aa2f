/-
  HashArchive.Path

  Paths inside an archive.  Slash and backslash both separate; empty parts and `.`
  are dropped; `..` is a step to the parent.  A file path ends in a name.
-/

namespace HashArchive

/-- One step of a path. -/
inductive Segment
  | parent
  | name (name : String)
deriving DecidableEq, Repr

namespace Path

/-- The two characters that separate the parts of a path. -/
def isSeparator (c : Char) : Bool := c == '/' || c == '\\'

/-- The step that a part of a path stands for, if any. -/
def segment? (part : List Char) : Option Segment :=
  if part = [] ∨ part = ['.'] then none
  else if part = ['.', '.'] then some .parent
  else some (.name (String.ofList part))

/-- The steps of a path. -/
def segments (path : String) : List Segment :=
  (path.toList.splitOnP isSeparator).filterMap segment?

/-- The steps to the directory of a file path, and the file's name; none when the path
    does not end in a name. -/
def file? (path : String) : Option (List Segment × String) :=
  match (segments path).getLast? with
  | some (.name name) => some ((segments path).dropLast, name)
  | _ => none

/-- What follows the last separator of a text. -/
def lastPart (text : String) : String :=
  String.ofList ((text.toList.splitOnP isSeparator).getLast?.getD [])

/-- A name that is one plain step: not empty, without separators, not `.` or `..`. -/
def Plain (name : String) : Prop :=
  name ≠ "" ∧ name ≠ "." ∧ name ≠ ".." ∧ ∀ c ∈ name.toList, isSeparator c = false

end Path

end HashArchive
