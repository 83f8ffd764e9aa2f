/-
  HashArchive.Text.Hex

  Hexadecimal numbers in lower-case digits.
-/

namespace HashArchive.Text.Hex

/-- The digits of a number, without leading zeros. -/
def digits (n : Nat) : String := String.ofList (Nat.toDigits 16 n)

/-- The digits of a number, filled up with zeros to at least `width`. -/
def padded (width n : Nat) : String :=
  let text := Nat.toDigits 16 n
  String.ofList (List.replicate (width - text.length) '0' ++ text)

end HashArchive.Text.Hex
