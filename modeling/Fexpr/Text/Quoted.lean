import Fexpr.Text.Unprintable

/-!
# Text/Quoted — texts shown between double quotes

What would end the quotes or does not show by itself is escaped: the usual short escapes where there
is one, else the number of the character in hexadecimal. Apostrophes stand as they are.
-/

namespace Fexpr

namespace Quoted

/-- A character by its number: a backslash, `u` and the number in braces. -/
def numbered (c : Char) : String :=
  "\\u\x7b" ++ String.ofList (Nat.toDigits 16 c.toNat) ++ "\x7d"

/-- **The form of a character between quotes.** -/
def escape (c : Char) : String :=
  if c == '\x00' then "\\0"
  else if c == '\t' then "\\t"
  else if c == '\n' then "\\n"
  else if c == '\r' then "\\r"
  else if c == '\\' then "\\\\"
  else if c == '"' then "\\\""
  else if isUnprintable c then numbered c
  else String.singleton c

/-- **A text between quotes.** -/
def text (text : String) : String :=
  "\"" ++ String.join (text.toList.map escape) ++ "\""

end Quoted

end Fexpr
