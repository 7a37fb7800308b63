import CallNgrams.Text.Number

/-!
# Search options

The size of the n-grams, and how far and along which paths the search goes.
-/

namespace CallNgrams

/-- How n-grams are searched. -/
structure SearchOptions where
  /-- The number of calls of an n-gram. -/
  size : Nat
  /-- A nonnegative call-depth budget, or a negative multiple of the size. -/
  maxCallDepth : Int := -2
  /-- Keeps immediate repetitions of call sequences. -/
  allowRepetitive : Bool := false
  /-- Only follows fallthroughs of branches. -/
  noBranch : Bool := false
  /-- Does not continue in the caller when a called method returns. -/
  noReturning : Bool := false
  /-- Does not enter the signatures that the dig policy names. -/
  useUndigged : Bool := false
  /-- Counts merge points against the budget in the starting method too. -/
  countSurface : Bool := false
deriving DecidableEq, Repr

/-- How many calls and merge points one path may enter, at most the highest unsigned integer. -/
def SearchOptions.budget (options : SearchOptions) : Nat :=
  if 0 ≤ options.maxCallDepth then options.maxCallDepth.toNat
  else min (options.size * options.maxCallDepth.natAbs) (Text.unsignedBound - 1)

end CallNgrams
