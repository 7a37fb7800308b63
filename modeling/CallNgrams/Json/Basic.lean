import CallNgrams.Text.Number

/-!
# JSON values

Values keep what their text says: the order and the repetition of object fields, and the literal of
each number. A string whose escapes leave a surrogate unpaired is not Unicode text; it is kept as a
missing value, so that a reader can skip it where its content does not matter.
-/

namespace CallNgrams

/-- The literal of a number: a sign, the digits before and after the point, and an exponent. -/
structure JsonNumber where
  isNegative : Bool
  whole : List Char
  fraction : Option (List Char)
  exponent : Option Int
deriving DecidableEq, Repr

/-- A JSON value. -/
inductive Json where
  | null
  | bool (value : Bool)
  | number (literal : JsonNumber)
  | text (value : Option String)
  | array (items : List Json)
  | object (fields : List (Option String × Json))
deriving Repr

namespace JsonNumber

/-- The value of a list of decimal digits. -/
def digitsValue (digits : List Char) : Nat :=
  digits.foldl (fun value c => value * 10 + (c.toNat - '0'.toNat)) 0

/-- The literal of a natural number. -/
def ofNat (n : Nat) : JsonNumber :=
  ⟨false, Nat.toDigits 10 n, none, none⟩

/-- The integer that a literal without point and exponent denotes. -/
def int? (literal : JsonNumber) : Option Int :=
  match literal.fraction, literal.exponent with
  | none, none =>
    let value : Int := digitsValue literal.whole
    some (if literal.isNegative then -value else value)
  | _, _ => none

/-- The natural number that an unsigned literal without point and exponent denotes. -/
def nat? (literal : JsonNumber) : Option Nat :=
  match literal.isNegative, literal.fraction, literal.exponent with
  | false, none, none => some (digitsValue literal.whole)
  | _, _, _ => none

/-- Reads digits behind a value for as long as it stays an unsigned integer: the value then, and
the digits that are left. -/
def takeDigits (value : Nat) : List Char → Nat × List Char
  | [] => (value, [])
  | c :: rest =>
    let next := value * 10 + (c.toNat - '0'.toNat)
    if next < Text.unsignedBound then takeDigits next rest else (value, c :: rest)

/-- The leading digits of a literal as an unsigned integer, and the power of ten that scales it.
Digits before the point that do not fit count in the power, and those behind it are dropped. -/
def scaled (literal : JsonNumber) : Nat × Int :=
  let fraction := literal.fraction.getD []
  let (whole, skipped) := takeDigits 0 literal.whole
  let (significand, dropped) := takeDigits whole fraction
  (significand, literal.exponent.getD 0 + skipped.length - (fraction.length - dropped.length : Nat))

/-- The nearest multiple of a power of two with a 53-bit factor; a tie goes to the even factor. -/
def roundPrecision (n : Nat) : Nat :=
  let shift := n.log2 - 52
  let factor := n / Nat.pow 2 shift
  let twiceRest := 2 * (n % Nat.pow 2 shift)
  let isUp := Nat.pow 2 shift < twiceRest || (twiceRest == Nat.pow 2 shift && factor % 2 == 1)
  (if isUp then factor + 1 else factor) * Nat.pow 2 shift

/-- Twice the least magnitude that double precision rounds to infinity. -/
def twiceOverflow : Nat :=
  (Nat.pow 2 54 - 1) * Nat.pow 2 971

/-- The greatest power of ten below that magnitude. -/
def greatestPower : Nat := 308

/-- Whether a literal is read as a finite number of double precision: the leading digits and the
power of ten are rounded, and then their product is. -/
def isFinite (literal : JsonNumber) : Bool :=
  let (significand, power) := literal.scaled
  if significand == 0 || power < 0 then true
  else if greatestPower < power then false
  else 2 * (roundPrecision significand * roundPrecision (Nat.pow 10 power.toNat)) < twiceOverflow

/-- The text of a literal. -/
def render (literal : JsonNumber) : String :=
  let sign := if literal.isNegative then "-" else ""
  let fraction := match literal.fraction with
    | some digits => "." ++ String.ofList digits
    | none => ""
  let exponent := match literal.exponent with
    | some power => "e" ++ toString power
    | none => ""
  sign ++ String.ofList literal.whole ++ fraction ++ exponent

end JsonNumber

namespace Json

/-- A text value. -/
def ofString (s : String) : Json :=
  .text (some s)

/-- A number value. -/
def ofNat (n : Nat) : Json :=
  .number (.ofNat n)

/-- An object with the given fields, in order. -/
def ofFields (fields : List (String × Json)) : Json :=
  .object (fields.map fun (name, value) => (some name, value))

end Json

end CallNgrams
