/-
  HashArchive.Json.Value

  JSON values, and how a text is written as a JSON string.
-/
import HashArchive.Text.Hex

namespace HashArchive.Json

/-- A JSON value.  Numbers keep their spelling; a string whose escapes spell half of a
    surrogate pair has no text. -/
inductive Value
  | null
  | bool (value : Bool)
  | number (spelling : String)
  | string (text : Option String)
  | array (items : List Value)
  | object (fields : List (Option String × Value))
deriving Repr, Inhabited

/-- A character as it stands in a JSON string. -/
def quoteChar (c : Char) : String :=
  if c = '"' then "\\\""
  else if c = '\\' then "\\\\"
  else if c = '\x08' then "\\b"
  else if c = '\x0c' then "\\f"
  else if c = '\n' then "\\n"
  else if c = '\r' then "\\r"
  else if c = '\t' then "\\t"
  else if c.toNat < 0x20 then "\\u" ++ Text.Hex.padded 4 c.toNat
  else c.toString

/-- A text as a JSON string. -/
def quote (text : String) : String :=
  "\"" ++ String.join (text.toList.map quoteChar) ++ "\""

end HashArchive.Json
