import CallNgrams.Location
import Std.Data.TreeMap

/-!
# Frame tables

A frame is a program point of a running method together with the frame of its caller. A frame table
numbers frames in the order of their creation, and equal frames share one number: the frames are
listed by number, and a map that goes the other way is asked before a frame is created.
-/

namespace CallNgrams

/-- A frame whose caller is given by its number. -/
structure NumberedFrame where
  point : ProgramPoint
  caller : Option Nat
  depth : Nat
deriving DecidableEq, Repr

/-- Frames are ordered by program point, caller and depth. -/
instance : Ord NumberedFrame where
  compare := compareLex (compareOn NumberedFrame.point)
    (compareLex (compareOn NumberedFrame.caller) (compareOn NumberedFrame.depth))

/-- Frames by number, and numbers by frame. -/
structure FrameTable where
  frames : Array NumberedFrame
  interned : Std.TreeMap NumberedFrame Nat

namespace FrameTable

/-- The table without frames. -/
def empty : FrameTable :=
  ⟨#[], ∅⟩

/-- The frame of a number. -/
def get? (table : FrameTable) (id : Nat) : Option NumberedFrame :=
  table.frames[id]?

/-- The frame of a number that the table has returned. -/
def frame (table : FrameTable) (id : Nat) : NumberedFrame :=
  (table.get? id).getD ⟨⟨⟨"", ""⟩, 0⟩, none, 0⟩

/-- The depth of a frame with the given caller. -/
def depthBelow (table : FrameTable) (caller : Option Nat) : Nat :=
  match caller.bind table.get? with
  | some frame => frame.depth + 1
  | none => 0

/-- The table with a further frame, which gets the next number. -/
def push (table : FrameTable) (frame : NumberedFrame) : FrameTable where
  frames := table.frames.push frame
  interned := table.interned.insert frame table.frames.size

/-- The number of a frame, which is created unless it exists. -/
def intern (table : FrameTable) (caller : Option Nat) (point : ProgramPoint) : Nat × FrameTable :=
  let frame : NumberedFrame := ⟨point, caller, table.depthBelow caller⟩
  match table.interned[frame]? with
  | some id => (id, table)
  | none => (table.frames.size, table.push frame)

/-- The number of a frame moved to another index of its method. -/
def withIndex (table : FrameTable) (id index : Nat) : Nat × FrameTable :=
  match table.get? id with
  | none => (id, table)
  | some frame =>
    if frame.point.index = index then (id, table)
    else table.intern frame.caller ⟨frame.point.method, index⟩

/-- The frame and its callers, as long as the bound allows. -/
def chainUpTo (table : FrameTable) : Nat → Nat → List NumberedFrame
  | 0, _ => []
  | bound + 1, id =>
    match table.get? id with
    | none => []
    | some frame =>
      match frame.caller with
      | some caller => frame :: table.chainUpTo bound caller
      | none => [frame]

/-- The frame and its callers up to the one that has none. Callers are older than the frames they
call, so a chain has no more frames than the table. -/
def chain (table : FrameTable) (id : Nat) : List NumberedFrame :=
  table.chainUpTo table.frames.size id

end FrameTable

end CallNgrams
