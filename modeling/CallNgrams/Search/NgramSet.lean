import CallNgrams.Search.Gram
import Std.Data.TreeSet

/-!
# Sets of n-grams

The n-grams found from one method and their rendered form. A set lists its members in ascending
order, so that n-grams with the same first call stand side by side. Rendering orders the n-grams of
such a group step by step; n-grams that differ only in the call stacks behind equal locations are
rendered once.
-/

namespace CallNgrams

/-- Frames are ordered by call site, depth and the call sites of the callers. -/
instance : Ord Frame where
  compare := compareLex (compareOn Frame.point)
    (compareLex (compareOn Frame.depth) (compareOn Frame.callers))

/-- Calls are ordered by target, then by frame. -/
instance {φ : Type} [Ord φ] : Ord (GramItem φ) where
  compare := compareLex (compareOn GramItem.target) (compareOn GramItem.frame)

/-- N-grams are ordered by first call, then by the further calls. -/
instance : Ord Ngram where
  compare := compareLex (compareOn Ngram.head) (compareOn Ngram.tail)

/-- A set of n-grams. -/
structure NgramSet where
  members : Std.TreeSet Ngram

namespace NgramSet

/-- The set without n-grams. -/
def empty : NgramSet :=
  ⟨∅⟩

/-- Whether an n-gram is in the set. -/
def contains (set : NgramSet) (ngram : Ngram) : Bool :=
  set.members.contains ngram

/-- Adds an n-gram. -/
def insert (set : NgramSet) (ngram : Ngram) : NgramSet :=
  ⟨set.members.insert ngram⟩

/-- The n-grams of the set, in ascending order. -/
def toList (set : NgramSet) : List Ngram :=
  set.members.toList

/-- The number of n-grams. -/
def size (set : NgramSet) : Nat :=
  set.members.size

end NgramSet

/-- One rendered call: its label, where it is made and how deep. -/
structure GramStep where
  label : String
  location : String
  depth : Nat
deriving DecidableEq, Repr

/-- Steps are ordered by label, then location, then depth. -/
instance : Ord GramStep where
  compare := compareLex (compareOn GramStep.label)
    (compareLex (compareOn GramStep.location) (compareOn GramStep.depth))

/-- A rendered n-gram. -/
abbrev RenderedNgram := List GramStep

/-- The rendered form of a call. -/
def GramItem.step (item : GramItem) : GramStep :=
  ⟨item.target.label, item.frame.point.text, item.frame.depth⟩

/-- The rendered form of an n-gram. -/
def Ngram.render (ngram : Ngram) : RenderedNgram :=
  ngram.toList.map GramItem.step

namespace NgramSet

/-- The n-grams with the same first call, in ascending order of the first calls. -/
def groups (set : NgramSet) : List (List Ngram) :=
  set.toList.splitBy fun a b => a.head == b.head

/-- The rendered n-grams of a group, in ascending order and each once. -/
def renderGroup (ngrams : List Ngram) : List RenderedNgram :=
  ((ngrams.map Ngram.render).mergeSort fun a b => (compare a b).isLE).eraseReps

/-- The rendered n-grams by first call, in ascending order of the first calls. -/
def render (set : NgramSet) : List (List RenderedNgram) :=
  set.groups.map renderGroup

end NgramSet

end CallNgrams
