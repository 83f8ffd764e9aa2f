/-
  HashArchive.Text.Utf16

  Text as UTF-16 code units, in both directions.  Every text has units; a list of
  units with a surrogate out of place decodes with a replacement character there.
-/
import HashArchive.Bytes

namespace HashArchive.Text.Utf16

/-- The first unit of a surrogate pair. -/
def isHigh (u : UInt16) : Bool := 0xD800 ≤ u && u < 0xDC00

/-- The second unit of a surrogate pair. -/
def isLow (u : UInt16) : Bool := 0xDC00 ≤ u && u < 0xE000

/-- One unit for a character of the basic plane, a surrogate pair for any other. -/
def ofChar (c : Char) : List UInt16 :=
  let code := c.toNat
  if code < 0x10000 then
    [UInt16.ofNat code]
  else
    [UInt16.ofNat (0xD800 + (code - 0x10000) / 0x400),
     UInt16.ofNat (0xDC00 + (code - 0x10000) % 0x400)]

/-- The units of a text. -/
def encode (text : List Char) : List UInt16 := text.flatMap ofChar

/-- What stands for a surrogate without its partner. -/
def replacement : Char := '\ufffd'

/-- The character that a surrogate pair stands for. -/
def pair (high low : UInt16) : Char :=
  Char.ofNat (0x10000 + (high.toNat - 0xD800) * 0x400 + (low.toNat - 0xDC00))

/-- The text of a list of units; each surrogate without its partner becomes one
    replacement character. -/
def decode : List UInt16 → List Char
  | [] => []
  | [u] => [if isHigh u || isLow u then replacement else Char.ofNat u.toNat]
  | u :: v :: rest =>
    if isHigh u && isLow v then
      pair u v :: decode rest
    else
      (if isHigh u || isLow u then replacement else Char.ofNat u.toNat) :: decode (v :: rest)

/-- The units as bytes, each lowest byte first. -/
def toBytes (units : List UInt16) : Bytes := units.flatMap Bytes.ofUInt16

end HashArchive.Text.Utf16
