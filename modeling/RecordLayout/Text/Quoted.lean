import RecordLayout.Text.Printable

/-!
# Quoted text

The quoted form of a text stands between double quotes. The quote, the backslash and four controls
have a short escape, any other character that is not printable is written as its number in braces,
and the rest stands for itself.
-/

namespace RecordLayout.Text.Quoted

/-- The digits of a number, the most significant first, in a base of at most sixteen. -/
def digits (base n : Nat) : String :=
  String.ofList (Nat.toDigits base n)

/-- One character between the quotes. -/
def escape (c : Char) : String :=
  if c = '\x00' then "\\0"
  else if c = '\t' then "\\t"
  else if c = '\r' then "\\r"
  else if c = '\n' then "\\n"
  else if c = '"' then "\\\""
  else if c = '\\' then "\\\\"
  else if isPrintable c then c.toString
  else "\\u\x7b" ++ digits 16 c.toNat ++ "\x7d"

/-- A text in quotes. -/
def encode (text : String) : String :=
  "\"" ++ String.join (text.toList.map escape) ++ "\""

end RecordLayout.Text.Quoted
