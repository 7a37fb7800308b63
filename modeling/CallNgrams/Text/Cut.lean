/-!
# Cutting texts

Cuts at the first or the last occurrence of a character, or at the first occurrence of a text. The
separator belongs to neither part, and a text without the separator has no cut.
-/

namespace CallNgrams.Text

/-- The parts before and after the first `sep`. -/
def cutFirst (sep : Char) : List Char → Option (List Char × List Char)
  | [] => none
  | c :: cs =>
    if c = sep then some ([], cs)
    else (cutFirst sep cs).map fun (before, after) => (c :: before, after)

/-- The parts before and after the last `sep`. -/
def cutLast (sep : Char) (cs : List Char) : Option (List Char × List Char) :=
  (cutFirst sep cs.reverse).map fun (after, before) => (before.reverse, after.reverse)

/-- What follows the first occurrence of `mark`. -/
def afterFirst (mark : List Char) : List Char → Option (List Char)
  | [] => if mark.isEmpty then some [] else none
  | c :: cs =>
    match mark.isPrefixOf? (c :: cs) with
    | some rest => some rest
    | none => afterFirst mark cs

/-- The text holds `mark` as a contiguous part. -/
def holds (mark cs : List Char) : Bool :=
  (afterFirst mark cs).isSome

end CallNgrams.Text
