/-
  HashArchive.Json.Token

  The tokens of JSON text.
-/
import HashArchive.Text.Utf16

namespace HashArchive.Json

/-- A token of JSON text. -/
inductive Token
  | openArray
  | closeArray
  | openObject
  | closeObject
  | comma
  | colon
  | null
  | bool (value : Bool)
  | number (spelling : String)
  | string (text : Option String)
deriving DecidableEq, Repr

namespace Token

/-! ## Strings -/

/-- A part of a string: a character, or a UTF-16 unit given by its number. -/
inductive Piece
  | char (c : Char)
  | unit (u : UInt16)
deriving DecidableEq, Repr

/-- The value of a hexadecimal digit. -/
def hexDigit? (c : Char) : Option Nat :=
  if '0' ≤ c ∧ c ≤ '9' then some (c.toNat - '0'.toNat)
  else if 'a' ≤ c ∧ c ≤ 'f' then some (c.toNat - 'a'.toNat + 10)
  else if 'A' ≤ c ∧ c ≤ 'F' then some (c.toNat - 'A'.toNat + 10)
  else none

/-- The unit that four hexadecimal digits spell. -/
def hexUnit? (a b c d : Char) : Option UInt16 := do
  let a ← hexDigit? a
  let b ← hexDigit? b
  let c ← hexDigit? c
  let d ← hexDigit? d
  return UInt16.ofNat (((a * 16 + b) * 16 + c) * 16 + d)

/-- The character that a backslash and another character stand for. -/
def escape? : Char → Option Char
  | '"' => some '"'
  | '\\' => some '\\'
  | '/' => some '/'
  | 'b' => some '\x08'
  | 'f' => some '\x0c'
  | 'n' => some '\n'
  | 'r' => some '\r'
  | 't' => some '\t'
  | _ => none

/-- The pieces of a string up to its closing quote, and what follows that. -/
def takeString : List Char → Option (List Piece × List Char)
  | [] => none
  | '"' :: text => some ([], text)
  | '\\' :: 'u' :: a :: b :: c :: d :: text => do
    let unit ← hexUnit? a b c d
    let (pieces, rest) ← takeString text
    return (.unit unit :: pieces, rest)
  | '\\' :: c :: text => do
    let char ← escape? c
    let (pieces, rest) ← takeString text
    return (.char char :: pieces, rest)
  | c :: text => do
    if c.toNat < 0x20 ∨ c = '\\' then
      none
    else
      let (pieces, rest) ← takeString text
      return (.char c :: pieces, rest)

/-- The text of a list of pieces, in which every half of a surrogate pair has its other
    half beside it. -/
def textOf? : List Piece → Option (List Char)
  | [] => some []
  | .char c :: pieces => (textOf? pieces).map (c :: ·)
  | .unit high :: .unit low :: pieces =>
    if Text.Utf16.isHigh high then
      if Text.Utf16.isLow low then (textOf? pieces).map (Text.Utf16.pair high low :: ·) else none
    else if Text.Utf16.isLow high then none
    else (textOf? (.unit low :: pieces)).map (Char.ofNat high.toNat :: ·)
  | .unit u :: pieces =>
    if Text.Utf16.isHigh u || Text.Utf16.isLow u then none
    else (textOf? pieces).map (Char.ofNat u.toNat :: ·)

theorem length_of_takeString {text rest : List Char} {pieces : List Piece}
    (h : takeString text = some (pieces, rest)) : rest.length < text.length := by
  fun_induction takeString text generalizing pieces with
  | case1 => cases h
  | case2 text =>
    obtain ⟨-, rfl⟩ := Prod.mk.inj (Option.some.inj h)
    exact Nat.lt_succ_self _
  | case3 a b c d text ih =>
    simp only [Option.bind_eq_bind, Option.bind_eq_some_iff] at h
    obtain ⟨unit, -, ⟨pieces', rest'⟩, htail, h⟩ := h
    obtain ⟨-, rfl⟩ := Prod.mk.inj (Option.some.inj h)
    have : rest'.length < text.length := ih htail
    show rest'.length < _
    simp only [List.length_cons]
    omega
  | case4 c text _ ih =>
    simp only [Option.bind_eq_bind, Option.bind_eq_some_iff] at h
    obtain ⟨char, -, ⟨pieces', rest'⟩, htail, h⟩ := h
    obtain ⟨-, rfl⟩ := Prod.mk.inj (Option.some.inj h)
    have : rest'.length < text.length := ih htail
    show rest'.length < _
    simp only [List.length_cons]
    omega
  | case5 => cases h
  | case6 c text _ _ _ _ ih =>
    simp only [Option.bind_eq_bind, Option.bind_eq_some_iff] at h
    obtain ⟨⟨pieces', rest'⟩, htail, h⟩ := h
    obtain ⟨-, rfl⟩ := Prod.mk.inj (Option.some.inj h)
    have : rest'.length < text.length := ih htail
    show rest'.length < _
    simp only [List.length_cons]
    omega

/-! ## Numbers -/

/-- The characters that numbers are made of. -/
def isNumberChar (c : Char) : Bool :=
  c.isDigit || c == '-' || c == '+' || c == '.' || c == 'e' || c == 'E'

/-- One or more digits, and nothing else. -/
def isDigits (text : List Char) : Bool := !text.isEmpty && text.all Char.isDigit

/-- A whole number without leading zeros. -/
def isWhole (text : List Char) : Bool :=
  isDigits text && (text == ['0'] || text.head? != some '0')

/-- Nothing, or an exponent. -/
def isExponent : List Char → Bool
  | [] => true
  | c :: text =>
    (c == 'e' || c == 'E') &&
      match text with
      | '+' :: digits => isDigits digits
      | '-' :: digits => isDigits digits
      | digits => isDigits digits

/-- What may follow the whole part of a number: a fraction, an exponent, both or
    nothing. -/
def isFraction : List Char → Bool
  | '.' :: text => isDigits (text.takeWhile Char.isDigit) && isExponent (text.dropWhile Char.isDigit)
  | text => isExponent text

/-- The spelling of a number. -/
def isNumber (text : List Char) : Bool :=
  let text := if text.head? = some '-' then text.tail else text
  isWhole (text.takeWhile Char.isDigit) && isFraction (text.dropWhile Char.isDigit)

/-! ## Texts -/

/-- The four blank characters. -/
def isBlank (c : Char) : Bool := c == ' ' || c == '\n' || c == '\t' || c == '\r'

/-- The marks that are tokens by themselves. -/
def mark? : Char → Option Token
  | '[' => some openArray
  | ']' => some closeArray
  | '\x7b' => some openObject
  | '\x7d' => some closeObject
  | ',' => some comma
  | ':' => some colon
  | _ => none

/-- The token that a text begins with, and what follows it. -/
def take? : List Char → Option (Token × List Char)
  | 'n' :: 'u' :: 'l' :: 'l' :: text => some (.null, text)
  | 't' :: 'r' :: 'u' :: 'e' :: text => some (.bool true, text)
  | 'f' :: 'a' :: 'l' :: 's' :: 'e' :: text => some (.bool false, text)
  | '"' :: text => do
    let (pieces, rest) ← takeString text
    return (.string ((textOf? pieces).map String.ofList), rest)
  | c :: text =>
    match mark? c with
    | some token => some (token, text)
    | none =>
      -- The longest run of such characters has to be one number as a whole.
      let run := c :: text.takeWhile isNumberChar
      if isNumber run then
        some (.number (String.ofList run), text.dropWhile isNumberChar)
      else
        none
  | [] => none

theorem length_of_take? {text rest : List Char} {token : Token}
    (h : take? text = some (token, rest)) : rest.length < text.length := by
  unfold take? at h
  split at h
  · obtain ⟨-, rfl⟩ := Prod.mk.inj (Option.some.inj h)
    simp only [List.length_cons]
    omega
  · obtain ⟨-, rfl⟩ := Prod.mk.inj (Option.some.inj h)
    simp only [List.length_cons]
    omega
  · obtain ⟨-, rfl⟩ := Prod.mk.inj (Option.some.inj h)
    simp only [List.length_cons]
    omega
  · next text =>
    simp only [Option.bind_eq_bind, Option.bind_eq_some_iff] at h
    obtain ⟨⟨pieces, rest'⟩, hstring, h⟩ := h
    obtain ⟨-, rfl⟩ := Prod.mk.inj (Option.some.inj h)
    have : rest'.length < text.length := length_of_takeString hstring
    show rest'.length < _
    simp only [List.length_cons]
    omega
  · next c text _ _ _ _ =>
    split at h
    · obtain ⟨-, rfl⟩ := Prod.mk.inj (Option.some.inj h)
      simp only [List.length_cons]
      omega
    · dsimp only at h
      split at h
      · obtain ⟨-, rfl⟩ := Prod.mk.inj (Option.some.inj h)
        have := (List.dropWhile_sublist isNumberChar (l := text)).length_le
        simp only [List.length_cons]
        omega
      · cases h
  · cases h

/-- The tokens of a text. -/
def ofChars? (text : List Char) : Option (List Token) :=
  match text with
  | [] => some []
  | c :: text =>
    if isBlank c then
      ofChars? text
    else
      match _taken : take? (c :: text) with
      | none => none
      | some (token, rest) => (ofChars? rest).map (token :: ·)
termination_by text.length
decreasing_by
  · simp only [List.length_cons]
    omega
  · exact length_of_take? _taken

end Token

end HashArchive.Json
