import CallNgrams.Text.Printable

/-!
# Quoted texts in messages

Messages quote a text between double quotation marks. The mark itself and the backslash get a
backslash, four control characters have a letter, and every other character without a shape of its
own is named by its code point.
-/

namespace CallNgrams.Text

/-- A code point in braces, in lower-case hexadecimal without padding. -/
def codePointEscape (c : Char) : String :=
  "\\u\x7b" ++ String.ofList (Nat.toDigits 16 c.toNat) ++ "\x7d"

/-- One character inside a quotation. -/
def quoteChar (c : Char) : String :=
  if c = '"' then "\\\""
  else if c = '\\' then "\\\\"
  else if c = '\n' then "\\n"
  else if c = '\r' then "\\r"
  else if c = '\t' then "\\t"
  else if c.toNat = 0 then "\\0"
  else if isPrintable c then c.toString
  else codePointEscape c

/-- A quoted text. -/
def quote (s : String) : String :=
  "\"" ++ String.join (s.toList.map quoteChar) ++ "\""

/-- A list of quoted texts in brackets. -/
def quoteList (texts : List String) : String :=
  "[" ++ ", ".intercalate (texts.map quote) ++ "]"

end CallNgrams.Text
