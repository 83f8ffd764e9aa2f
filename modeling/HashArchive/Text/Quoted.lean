/-
  HashArchive.Text.Quoted

  Text in double quotes that can be shown in a message: quotes and backslashes are
  escaped, and what would be invisible is shown by its number.
-/
import HashArchive.Text.EscapeTable
import HashArchive.Text.Hex

namespace HashArchive.Text

/-- A character as it stands in quoted text. -/
def quoteChar (c : Char) : String :=
  if c = '\x00' then "\\0"
  else if c = '\t' then "\\t"
  else if c = '\r' then "\\r"
  else if c = '\n' then "\\n"
  else if c = '"' then "\\\""
  else if c = '\\' then "\\\\"
  else if unprintable.has c then "\\u\x7b" ++ Hex.digits c.toNat ++ "\x7d"
  else c.toString

/-- A text in double quotes. -/
def quoted (text : String) : String :=
  "\"" ++ String.join (text.toList.map quoteChar) ++ "\""

end HashArchive.Text
