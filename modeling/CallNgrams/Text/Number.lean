/-!
# Reading bounded integers

Decimal numerals of 64-bit integers: ASCII digits with leading zeros allowed, one leading sign, and
no value outside the range.
-/

namespace CallNgrams.Text

/-- Unsigned integers lie below this bound. -/
def unsignedBound : Nat := Nat.pow 2 64

/-- Signed integers lie from the negated bound up to, and without, this bound. -/
def signedBound : Nat := Nat.pow 2 63

/-- The value of a nonempty list of ASCII digits. -/
def digits? (cs : List Char) : Option Nat :=
  if !cs.isEmpty && cs.all Char.isDigit then
    some (cs.foldl (fun value c => value * 10 + (c.toNat - '0'.toNat)) 0)
  else
    none

/-- An unsigned numeral: digits after at most one plus sign. -/
def unsigned? (cs : List Char) : Option Nat := do
  let value ← match cs with
    | '+' :: rest => digits? rest
    | _ => digits? cs
  if value < unsignedBound then some value else none

/-- A signed numeral: digits after at most one sign. -/
def signed? (cs : List Char) : Option Int := do
  let value : Int ← match cs with
    | '+' :: rest => (digits? rest).map Int.ofNat
    | '-' :: rest => (digits? rest).map fun value => -Int.ofNat value
    | _ => (digits? cs).map Int.ofNat
  if -signedBound ≤ value && value < signedBound then some value else none

end CallNgrams.Text
