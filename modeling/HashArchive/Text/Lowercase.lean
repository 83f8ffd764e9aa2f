/-
  HashArchive.Text.Lowercase

  Lower-casing by the full Unicode mapping.  It works character by character, with
  one rule that looks around: a capital sigma that ends a word becomes the final
  form.
-/
import HashArchive.Text.CaseTable

namespace HashArchive.Text

/-- The lower-case form of one character by itself. -/
def lowerChar (c : Char) : List Char :=
  if c.toNat < 0x80 then
    [c.toLower]
  else if c = 'İ' then
    ['i', '\u0307']
  else
    match capitals.findSome? (·.lower? c.toNat) with
    | some code => [Char.ofNat code]
    | none => [c]

/-- Whether the first character that is not case-ignorable is a cased one. -/
def meetsCased (text : List Char) : Bool :=
  match text.find? (fun c => !caseIgnorable.has c) with
  | some c => cased.has c
  | none => false

/-- Lower-casing of `after`, where `before` is the text to its left, nearest first. -/
def lowerFrom (before : List Char) : (after : List Char) → List Char
  | [] => []
  | c :: after =>
    let lower :=
      if c = 'Σ' then
        -- The word has begun before the sigma and does not go on after it.
        if meetsCased before && !meetsCased after then ['ς'] else ['σ']
      else
        lowerChar c
    lower ++ lowerFrom (c :: before) after

/-- The lower-case form of a text. -/
def lowercase (text : String) : String := String.ofList (lowerFrom [] text.toList)

end HashArchive.Text
