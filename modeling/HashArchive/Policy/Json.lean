/-
  HashArchive.Policy.Json

  Policies as JSON: an object with a field for each setting, or an array of the
  settings in order.  A setting that is left out has its default.
-/
import HashArchive.Json.Parse
import HashArchive.Policy

namespace HashArchive.Policy

open Json (Value)

/-- The names of the two fields. -/
def keepDuplicatesField : String := "keep_duplicates"

@[inherit_doc keepDuplicatesField]
def compressGlobsField : String := "compress_globs"

/-! ## Reading -/

/-- A truth value. -/
def bool? : Value → Option Bool
  | .bool b => some b
  | _ => none

/-- A string that has a text. -/
def text? : Value → Option String
  | .string text => text
  | _ => none

/-- An array of strings. -/
def texts? : Value → Option (List String)
  | .array items => items.mapM text?
  | _ => none

/-- The setting in a field that may be left out, but not be given twice. -/
def setting? {α : Type} (decode : Value → Option α) (default : α) :
    (values : List Value) → Option α
  | [] => some default
  | [value] => decode value
  | _ => none

/-- The policy of a JSON value.  Fields with other names are ignored, but they have to
    have one. -/
def ofValue? (value : Value) : Option Policy :=
  let default : Policy := {}
  match value with
  | .array [] => some default
  | .array [keep] => return { keepDuplicates := ← bool? keep }
  | .array [keep, globs] =>
    return { keepDuplicates := ← bool? keep, compressGlobs := ← texts? globs }
  | .object fields =>
    if fields.all (·.1.isSome) then do
      let valuesOf (name : String) := (fields.filter (·.1 == some name)).map (·.2)
      let keep ← setting? bool? default.keepDuplicates (valuesOf keepDuplicatesField)
      let globs ← setting? texts? default.compressGlobs (valuesOf compressGlobsField)
      return { keepDuplicates := keep, compressGlobs := globs }
    else
      none
  | _ => none

/-- The policy that a JSON text spells. -/
def ofJson? (text : String) : Option Policy := do
  ofValue? (← Json.parse? text)

/-! ## Writing -/

/-- The policy as JSON text, both fields in order and no blanks. -/
def toJson (policy : Policy) : String :=
  "\x7b" ++ Json.quote keepDuplicatesField ++ ":"
    ++ (if policy.keepDuplicates then "true" else "false") ++ ","
    ++ Json.quote compressGlobsField ++ ":["
    ++ ",".intercalate (policy.compressGlobs.map Json.quote) ++ "]\x7d"

end HashArchive.Policy
