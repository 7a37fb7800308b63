import CallNgrams.Json.Basic

/-!
# Writing JSON

Values are laid out over several lines with two spaces for each level. Empty arrays and objects
stay on one line. Strings escape only quotation marks, backslashes and control characters.
-/

namespace CallNgrams.Json

/-- Two spaces for each level. -/
def indentation (level : Nat) : String :=
  String.ofList (List.replicate (2 * level) ' ')

/-- One character of a string. -/
def escapeChar (c : Char) : String :=
  if c = '"' then "\\\""
  else if c = '\\' then "\\\\"
  else if c = '\n' then "\\n"
  else if c = '\r' then "\\r"
  else if c = '\t' then "\\t"
  else if c.toNat = 8 then "\\b"
  else if c.toNat = 12 then "\\f"
  else if c.toNat < 0x20 then
    let digits := Nat.toDigits 16 c.toNat
    "\\u" ++ String.ofList (List.replicate (4 - digits.length) '0' ++ digits)
  else c.toString

/-- A string between quotation marks. -/
def quoted (s : String) : String :=
  "\"" ++ String.join (s.toList.map escapeChar) ++ "\""

/-- Lines with commas between them, each on its level, between two marks. -/
def block (level : Nat) (opening closing : String) (lines : List String) : String :=
  if lines.isEmpty then opening ++ closing
  else
    let separator := ",\n" ++ indentation (level + 1)
    opening ++ "\n" ++ indentation (level + 1) ++ separator.intercalate lines ++ "\n" ++
      indentation level ++ closing

mutual

/-- A value on a level of nesting. -/
def prettyAt (level : Nat) : Json → String
  | .null => "null"
  | .bool value => if value then "true" else "false"
  | .number literal => literal.render
  | .text value => quoted (value.getD "")
  | .array items => block level "[" "]" (prettyItems (level + 1) items)
  | .object fields => block level "\x7b" "\x7d" (prettyFields (level + 1) fields)

/-- The items of an array. -/
def prettyItems (level : Nat) : List Json → List String
  | [] => []
  | item :: items => prettyAt level item :: prettyItems level items

/-- The fields of an object. -/
def prettyFields (level : Nat) : List (Option String × Json) → List String
  | [] => []
  | (name, value) :: fields =>
    (quoted (name.getD "") ++ ": " ++ prettyAt level value) :: prettyFields level fields

end

/-- A value laid out over several lines. -/
def pretty (value : Json) : String :=
  prettyAt 0 value

end CallNgrams.Json
