/-
  HashArchive.Glob

  Globs over names: `*` stands for any sequence of characters, `?` for any one, and
  every other character for itself.  The matcher works from the end of the glob, on
  one row of answers for all the ends of the name at once, so it never backtracks.
-/

namespace HashArchive

/-- What a character of a glob stands for. -/
inductive Wildcard
  | any
  | one
  | exactly (c : Char)
deriving DecidableEq, Repr

/-- A glob. -/
abbrev Glob := List Wildcard

namespace Glob

/-- The glob that a text spells. -/
def ofString (text : String) : Glob :=
  text.toList.map fun
    | '*' => .any
    | '?' => .one
    | c => .exactly c

/-- The glob stands for the name. -/
inductive Matches : Glob → List Char → Prop
  | nil : Matches [] []
  | anyNone {glob name} : Matches glob name → Matches (.any :: glob) name
  | anySome {glob name c} : Matches (.any :: glob) name → Matches (.any :: glob) (c :: name)
  | one {glob name c} : Matches glob name → Matches (.one :: glob) (c :: name)
  | exactly {glob name c} : Matches glob name → Matches (.exactly c :: glob) (c :: name)

/-! ## Rows

A row holds one answer for each end of the name, the whole name first and the empty
end last. -/

/-- The row of the empty glob: it stands for the empty end only. -/
def emptyRow : List Char → List Bool
  | [] => [true]
  | _ :: name => false :: emptyRow name

/-- The row of `*` before a glob with the given row: some end of the end matches. -/
def anyRow : List Bool → List Bool
  | [] => []
  | answer :: row =>
    let rest := anyRow row
    (answer || rest.head?.getD false) :: rest

/-- The row of a one-character wildcard before a glob with the given row. -/
def charRow (accepts : Char → Bool) : (name : List Char) → (row : List Bool) → List Bool
  | c :: name, _ :: row => (accepts c && row.head?.getD false) :: charRow accepts name row
  | _, _ => [false]

/-- The answers for all ends of a name. -/
def row (name : List Char) : Glob → List Bool
  | [] => emptyRow name
  | .any :: glob => anyRow (row name glob)
  | .one :: glob => charRow (fun _ => true) name (row name glob)
  | .exactly c :: glob => charRow (· == c) name (row name glob)

/-- Whether the glob stands for the whole name. -/
def matches? (glob : Glob) (name : String) : Bool := (row name.toList glob).head?.getD false

end Glob

end HashArchive
