import CallNgrams.Signature
import CallNgrams.Text.Blank
import CallNgrams.Text.Number

/-!
# Locations

A location is a program point of a method, written `owner.signature,index`. In reports it may be
followed by `>` and a call depth. Since a signature can hold `>` itself, only a numeral after the
last `>` is a depth.
-/

namespace CallNgrams

/-- An offset in a method. -/
structure ProgramPoint where
  method : MethodKey
  index : Nat
deriving DecidableEq, Repr

namespace ProgramPoint

/-- The text `owner.signature,index`. -/
def text (point : ProgramPoint) : String :=
  point.method.text ++ "," ++ toString point.index

/-- Points are ordered by method, then by index. -/
instance : Ord ProgramPoint where
  compare := compareLex (compareOn ProgramPoint.method) (compareOn ProgramPoint.index)

/-- The depth after the last `>` of a location text. -/
def depth? (text : String) : Option Nat := do
  let (_, depth) ← Text.cutLast '>' text.toList
  Text.unsigned? (Text.trim depth)

/-- The location text without its depth. -/
def withoutDepth (cs : List Char) : List Char :=
  match Text.cutLast '>' cs with
  | some (head, depth) => if (Text.unsigned? (Text.trim depth)).isSome then head else cs
  | none => cs

/-- Reads a location, with or without a depth. The index follows the last comma, the signature the
first dot, and white space around the parts is dropped. -/
def parse? (text : String) : Option ProgramPoint := do
  let (method, index) ← Text.cutLast ',' (Text.trim (withoutDepth text.toList))
  let index ← Text.unsigned? (Text.trim index)
  let key ← Signature.splitOwner (Text.trim method)
  some ⟨key, index⟩

end ProgramPoint

end CallNgrams
