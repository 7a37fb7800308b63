import CallNgrams.Json.Basic

/-!
# Reading JSON

Strict JSON: one value, with white space around its parts and nothing else. There are no trailing
commas, comments or leading zeros, and no raw control characters in strings. Every nesting level and
every element consumes a character, so twice the length of the text bounds the recursion.
-/

namespace CallNgrams.Json

/-- The white space between the parts of a value. -/
def isSpace (c : Char) : Bool :=
  c == ' ' || c == '\t' || c == '\n' || c == '\r'

/-- The text without leading white space. -/
def skipSpace (cs : List Char) : List Char :=
  cs.dropWhile isSpace

/-- A part of a string: a character, or a numeric escape, which may be half of a pair. -/
inductive Piece where
  | char (c : Char)
  | unit (value : Nat)
deriving DecidableEq, Repr

/-- The first halves of escaped pairs. -/
def isLeading (value : Nat) : Bool :=
  0xd800 ≤ value && value < 0xdc00

/-- The second halves of escaped pairs. -/
def isTrailing (value : Nat) : Bool :=
  0xdc00 ≤ value && value < 0xe000

/-- The characters of a string; none if a half of a pair stands alone. -/
def joinPieces : List Piece → Option (List Char)
  | [] => some []
  | .char c :: rest => (joinPieces rest).map (c :: ·)
  | .unit value :: .unit trailing :: rest =>
    if isLeading value && isTrailing trailing then
      (joinPieces rest).map
        (Char.ofNat (0x10000 + (value - 0xd800) * 0x400 + (trailing - 0xdc00)) :: ·)
    else if isLeading value || isTrailing value then none
    else (joinPieces (.unit trailing :: rest)).map (Char.ofNat value :: ·)
  | .unit value :: rest =>
    if isLeading value || isTrailing value then none
    else (joinPieces rest).map (Char.ofNat value :: ·)

/-- The value of a hexadecimal digit. -/
def hexDigit? (c : Char) : Option Nat :=
  if c.isDigit then some (c.toNat - '0'.toNat)
  else if 'a' ≤ c && c ≤ 'f' then some (c.toNat - 'a'.toNat + 10)
  else if 'A' ≤ c && c ≤ 'F' then some (c.toNat - 'A'.toNat + 10)
  else none

/-- The value of four hexadecimal digits. -/
def hexFour? (a b c d : Char) : Option Nat := do
  let a ← hexDigit? a
  let b ← hexDigit? b
  let c ← hexDigit? c
  let d ← hexDigit? d
  some (((a * 16 + b) * 16 + c) * 16 + d)

/-- The character that a one-letter escape stands for. -/
def shortEscape? (c : Char) : Option Char :=
  if c = '"' || c = '\\' || c = '/' then some c
  else if c = 'b' then some (Char.ofNat 8)
  else if c = 'f' then some (Char.ofNat 12)
  else if c = 'n' then some '\n'
  else if c = 'r' then some '\r'
  else if c = 't' then some '\t'
  else none

/-- Reads a string behind its opening mark, up to and with its closing mark. -/
def readPieces : List Char → List Piece → Option (List Piece × List Char)
  | [], _ => none
  | '"' :: rest, pieces => some (pieces.reverse, rest)
  | '\\' :: 'u' :: a :: b :: c :: d :: rest, pieces => do
    let value ← hexFour? a b c d
    readPieces rest (.unit value :: pieces)
  | '\\' :: c :: rest, pieces => do
    let c ← shortEscape? c
    readPieces rest (.char c :: pieces)
  | c :: rest, pieces =>
    if c.toNat < 0x20 || c = '\\' then none else readPieces rest (.char c :: pieces)

/-- Reads a string behind its opening mark. -/
def readText (cs : List Char) : Option (Option String × List Char) := do
  let (pieces, rest) ← readPieces cs []
  some ((joinPieces pieces).map String.ofList, rest)

/-- Reads one or more digits. -/
def readDigits (cs : List Char) : Option (List Char × List Char) :=
  let digits := cs.takeWhile Char.isDigit
  if digits.isEmpty then none else some (digits, cs.dropWhile Char.isDigit)

/-- Reads the digits of an optional fraction. -/
def readFraction (cs : List Char) : Option (Option (List Char) × List Char) :=
  match cs with
  | '.' :: rest => (readDigits rest).map fun (digits, rest) => (some digits, rest)
  | _ => some (none, cs)

/-- Reads the digits of an exponent, behind its sign. -/
def readPower (sign : Int) (cs : List Char) : Option (Option Int × List Char) :=
  (readDigits cs).map fun (digits, rest) =>
    (some (sign * (JsonNumber.digitsValue digits : Int)), rest)

/-- Reads an optional exponent. -/
def readExponent (cs : List Char) : Option (Option Int × List Char) :=
  match cs with
  | c :: rest =>
    if c = 'e' || c = 'E' then
      match rest with
      | '+' :: rest => readPower 1 rest
      | '-' :: rest => readPower (-1) rest
      | _ => readPower 1 rest
    else some (none, cs)
  | [] => some (none, cs)

/-- Reads a number behind its sign. -/
def readUnsigned (isNegative : Bool) (cs : List Char) : Option (JsonNumber × List Char) := do
  let (whole, rest) ← readDigits cs
  if whole.head? == some '0' && whole.length > 1 then none
  else
    let (fraction, rest) ← readFraction rest
    let (exponent, rest) ← readExponent rest
    some (⟨isNegative, whole, fraction, exponent⟩, rest)

/-- Reads a number. -/
def readNumber (cs : List Char) : Option (JsonNumber × List Char) :=
  match cs with
  | '-' :: rest => readUnsigned true rest
  | _ => readUnsigned false cs

/-- Reads a word or a number. -/
def readScalar (cs : List Char) : Option (Json × List Char) :=
  match "null".toList.isPrefixOf? cs with
  | some rest => some (.null, rest)
  | none =>
    match "true".toList.isPrefixOf? cs with
    | some rest => some (.bool true, rest)
    | none =>
      match "false".toList.isPrefixOf? cs with
      | some rest => some (.bool false, rest)
      | none => (readNumber cs).map fun (literal, rest) => (.number literal, rest)

mutual

/-- Reads one value behind optional white space. -/
def readValue : Nat → List Char → Option (Json × List Char)
  | 0, _ => none
  | fuel + 1, cs =>
    match skipSpace cs with
    | '"' :: rest => (readText rest).map fun (value, rest) => (.text value, rest)
    | '[' :: rest =>
      match skipSpace rest with
      | ']' :: rest => some (.array [], rest)
      | _ => readItems fuel rest []
    | '{' :: rest =>
      match skipSpace rest with
      | '}' :: rest => some (.object [], rest)
      | _ => readFields fuel rest []
    | cs => readScalar cs

/-- Reads the items of an array up to its bracket, behind the items read so far. -/
def readItems : Nat → List Char → List Json → Option (Json × List Char)
  | 0, _, _ => none
  | fuel + 1, cs, items => do
    let (item, rest) ← readValue fuel cs
    match skipSpace rest with
    | ',' :: rest => readItems fuel rest (item :: items)
    | ']' :: rest => some (.array (item :: items).reverse, rest)
    | _ => none

/-- Reads the fields of an object up to its brace, behind the fields read so far. -/
def readFields : Nat → List Char → List (Option String × Json) → Option (Json × List Char)
  | 0, _, _ => none
  | fuel + 1, cs, fields =>
    match skipSpace cs with
    | '"' :: rest => do
      let (name, rest) ← readText rest
      match skipSpace rest with
      | ':' :: rest => do
        let (value, rest) ← readValue fuel rest
        match skipSpace rest with
        | ',' :: rest => readFields fuel rest ((name, value) :: fields)
        | '}' :: rest => some (.object ((name, value) :: fields).reverse, rest)
        | _ => none
      | _ => none
    | _ => none

end

/-- Reads a text that holds exactly one value. -/
def parse? (text : String) : Option Json := do
  let cs := text.toList
  let (value, rest) ← readValue (2 * cs.length + 2) cs
  if (skipSpace rest).isEmpty then some value else none

end CallNgrams.Json
