import CallNgrams.Location

/-!
# Grams

A gram is the sequence of calls that a path has made, each with the frame it was made in. The
latest call comes first, so that the last calls of a path are the first of the list. Paths can be
long, so a gram knows its length. A frame is a whole call stack here unless said otherwise: where
frames are numbered, the same grams have numbers in their place.
-/

namespace CallNgrams

/-- A call site and the call sites of the callers, innermost first. -/
structure Frame where
  point : ProgramPoint
  callers : List ProgramPoint
deriving DecidableEq, Repr

/-- The number of callers. -/
def Frame.depth (frame : Frame) : Nat :=
  frame.callers.length

/-- One call of a path. -/
structure GramItem (φ : Type := Frame) where
  target : CallTarget
  frame : φ
deriving DecidableEq, Repr

/-- An n-gram: consecutive calls of a path, in the order in which they were made. -/
structure Ngram (φ : Type := Frame) where
  head : GramItem φ
  tail : List (GramItem φ)
deriving DecidableEq, Repr

/-- The calls of an n-gram. -/
def Ngram.toList {φ : Type} (ngram : Ngram φ) : List (GramItem φ) :=
  ngram.head :: ngram.tail

/-- The calls of a path, latest first. -/
structure Gram (φ : Type := Frame) where
  items : List (GramItem φ)
  count : Nat
  count_eq : count = items.length
deriving DecidableEq, Repr

namespace Gram

variable {φ : Type}

/-- The gram without calls. -/
def empty : Gram φ :=
  ⟨[], 0, rfl⟩

/-- The gram with a further call. -/
def push (gram : Gram φ) (item : GramItem φ) : Gram φ :=
  ⟨item :: gram.items, gram.count + 1, by rw [gram.count_eq, List.length_cons]⟩

/-- The gram without its last calls. -/
def dropLast (gram : Gram φ) (count : Nat) : Gram φ :=
  ⟨gram.items.drop count, gram.count - count, by rw [gram.count_eq, List.length_drop]⟩

/-- The last `size` calls. -/
def keepLast (gram : Gram φ) (size : Nat) : Gram φ :=
  if h : size < gram.count then
    ⟨gram.items.take size, size, by
      rw [List.length_take, ← gram.count_eq, Nat.min_eq_left (Nat.le_of_lt h)]⟩
  else gram

/-- Whether the first `count` calls of two lists have the same targets. -/
def agree : Nat → List (GramItem φ) → List (GramItem φ) → Bool
  | 0, _, _ => true
  | count + 1, a :: as, b :: bs => a.target == b.target && agree count as bs
  | _ + 1, _, _ => false

/-- The first of the next `tries` periods that the calls repeat, given what precedes a period. -/
def repeatFrom? (items : List (GramItem φ)) : Nat → Nat → List (GramItem φ) → Option Nat
  | 0, _, _ => none
  | tries + 1, period, rest =>
    if agree period items rest then some period
    else repeatFrom? items tries (period + 1) rest.tail

/-- The shortest period, of at most half of `size` and of the length, whose last targets are the
same as those right before them. -/
def shortestRepeat? (size : Nat) (gram : Gram φ) : Option Nat :=
  repeatFrom? gram.items (min gram.count size / 2) 1 gram.items.tail

/-- The last `size` calls as an n-gram, if there are so many. -/
def window? (size : Nat) (gram : Gram φ) : Option (Ngram φ) :=
  if size ≤ gram.count then
    match (gram.items.take size).reverse with
    | head :: tail => some ⟨head, tail⟩
    | [] => none
  else none

/-- Whether none of the first `count` calls has the signature. -/
def isFree (signature : String) : Nat → List (GramItem φ) → Bool
  | 0, _ => true
  | _ + 1, [] => true
  | count + 1, item :: rest => item.target.signature != signature && isFree signature count rest

/-- Whether none of the last `count` calls has the signature. -/
def isRecentlyFree (count : Nat) (signature : String) (gram : Gram φ) : Bool :=
  isFree signature count gram.items

end Gram

end CallNgrams
