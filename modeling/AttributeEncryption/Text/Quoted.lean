import AttributeEncryption.Text.Unprintable

/-!
# Quoted text

A text between double quotes, with escapes for the quote, the backslash, the usual
control characters and every character without a glyph of its own. A reader can tell
from it exactly which characters the text has.
-/

namespace AttributeEncryption.Quoted

/-- A number in lower-case hexadecimal, without leading zeros. -/
def hex (n : Nat) : String :=
  String.ofList (Nat.toDigits 16 n)

/-- A character as it stands between the quotes. -/
def escape (c : Char) : String :=
  if c = '"' then "\\\""
  else if c = '\\' then "\\\\"
  else if c = '\n' then "\\n"
  else if c = '\r' then "\\r"
  else if c = '\t' then "\\t"
  else if c = '\x00' then "\\0"
  else if c.toNat < 0x7F && 0x20 ≤ c.toNat then c.toString
  else if Unprintable.contains c then "\\u\x7b" ++ hex c.toNat ++ "\x7d"
  else c.toString

/-- A text in quotes. -/
def quote (s : String) : String :=
  "\"" ++ String.join (s.toList.map escape) ++ "\""

end AttributeEncryption.Quoted
