/-
  HashArchive.Policy.Filter

  The globs of the settings, compiled by a library of patterns.  The library also knows classes
  in brackets and `**` across directories, and globs know neither: before the library sees a
  glob, its brackets are put into classes of themselves and a run of `*` is made one.
-/
import HashArchive.Policy
import HashArchive.Text.Quoted

namespace HashArchive

/-- A library of patterns over names. -/
structure PatternLibrary where
  Pattern : Type
  /-- Why a text is refused. -/
  Fault : Type
  /-- The fault in words. -/
  message : Fault → String
  compile : String → Except Fault Pattern
  /-- Whether a pattern stands for the whole name. -/
  accepts : Pattern → String → Bool

variable {library : PatternLibrary}

/-- A glob that the library refuses. -/
structure BadGlob (library : PatternLibrary) where
  glob : String
  fault : library.Fault

/-- The error in words. -/
def BadGlob.message (bad : BadGlob library) : String :=
  "invalid compression glob " ++ Text.quoted bad.glob ++ ": " ++ library.message bad.fault

/-- The compiled globs of the settings. -/
structure Filter (library : PatternLibrary) where
  patterns : List library.Pattern

/-- Whether a file of this name is to be deflated. -/
def Filter.compresses (filter : Filter library) (name : String) : Bool :=
  filter.patterns.any fun pattern => library.accepts pattern name

namespace Glob

/-- Writes a character of a glob behind what has been written. -/
def escapeChar (written : List Char) (c : Char) : List Char :=
  if c = '[' then written ++ ['[', '[', ']']
  else if c = ']' then written ++ ['[', ']', ']']
  else if c = '*' ∧ written.getLast? = some '*' then written
  else written ++ [c]

/-- The text of a glob as the library is to see it. -/
def escape (glob : String) : String := String.ofList (glob.toList.foldl escapeChar [])

end Glob

/-- Compiles the globs one after another, up to the first one that is refused. -/
def Policy.compile (policy : Policy) (library : PatternLibrary) :
    Except (BadGlob library) (Filter library) := do
  let patterns ← policy.compressGlobs.mapM fun glob =>
    (library.compile (Glob.escape glob)).mapError (BadGlob.mk glob)
  return { patterns }

end HashArchive
