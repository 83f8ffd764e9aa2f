/-
  HashArchive.Json.Parse

  From tokens to a value, by a machine that takes one token at a time and keeps a
  stack of the arrays and objects that are still open.
-/
import HashArchive.Json.Token
import HashArchive.Json.Value

namespace HashArchive.Json

/-- An array or object that is still open: what it holds so far, newest first, and for
    an object the key whose value is being read. -/
inductive Frame
  | array (items : List Value)
  | object (fields : List (Option String × Value)) (key : Option String)

/-- What may come next, inside the open frames. -/
inductive State
  /-- A value. -/
  | value (frames : List Frame)
  /-- A value or the end of the array that has just begun. -/
  | firstItem (frames : List Frame)
  /-- A key or the end of the object that has just begun. -/
  | firstKey (frames : List Frame)
  /-- A key of the object with these fields. -/
  | key (fields : List (Option String × Value)) (frames : List Frame)
  /-- The colon after a key. -/
  | colon (fields : List (Option String × Value)) (key : Option String) (frames : List Frame)
  /-- A comma or the end of the innermost frame, of which this value is the newest part. -/
  | after (value : Value) (frames : List Frame)

namespace State

/-- A token where a value may begin. -/
def begin? (frames : List Frame) : Token → Option State
  | .null => some (.after .null frames)
  | .bool b => some (.after (.bool b) frames)
  | .number spelling => some (.after (.number spelling) frames)
  | .string text => some (.after (.string text) frames)
  | .openArray => some (.firstItem frames)
  | .openObject => some (.firstKey frames)
  | _ => none

/-- One token. -/
def step? : State → Token → Option State
  | value frames, token => begin? frames token
  | firstItem frames, .closeArray => some (.after (.array []) frames)
  | firstItem frames, token => begin? (.array [] :: frames) token
  | firstKey frames, .closeObject => some (.after (.object []) frames)
  | firstKey frames, .string name => some (.colon [] name frames)
  | key fields frames, .string name => some (.colon fields name frames)
  | colon fields name frames, .colon => some (.value (.object fields name :: frames))
  | after item (.array items :: frames), .comma => some (.value (.array (item :: items) :: frames))
  | after item (.array items :: frames), .closeArray =>
    some (.after (.array (item :: items).reverse) frames)
  | after item (.object fields name :: frames), .comma => some (.key ((name, item) :: fields) frames)
  | after item (.object fields name :: frames), .closeObject =>
    some (.after (.object ((name, item) :: fields).reverse) frames)
  | _, _ => none

end State

/-- The value that a text spells. -/
def parse? (text : String) : Option Value := do
  let tokens ← Token.ofChars? text.toList
  match ← tokens.foldlM State.step? (.value []) with
  | .after value [] => some value
  | _ => none

end HashArchive.Json
