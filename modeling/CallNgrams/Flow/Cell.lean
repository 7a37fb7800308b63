import CallNgrams.Error

/-!
# Cells

While a method is compiled, each of its offsets is a cell. A cell may hold a command, which says
where control can go, and the index that control falls through to. The cell behind the last offset
returns, so that every fallthrough has a destination.
-/

namespace CallNgrams

/-- What happens at a program point. -/
inductive Command where
  /-- Control returns to the caller. -/
  | ret
  /-- Control leaves the method by an exception. -/
  | raise
  /-- Control goes to one destination. -/
  | jump (target : Nat)
  /-- Control goes to one of several destinations, or falls through. -/
  | branch (targets : List Nat)
  /-- A method is called, then control falls through. -/
  | call (target : CallTarget)
deriving DecidableEq, Repr

/-- A program point under compilation; its index is its position. -/
structure Cell where
  next : Option Nat
  command : Option Command
deriving DecidableEq, Repr

/-- A cell without a command. -/
def Cell.empty : Cell :=
  ⟨none, none⟩

/-- The cells of a method and the index at which it is entered. -/
structure CellArray where
  method : MethodKey
  cells : Array Cell
  entrance : Nat
deriving DecidableEq, Repr

namespace CellArray

/-- The number of cells. -/
def size (array : CellArray) : Nat :=
  array.cells.size

/-- The command at an index. -/
def command? (array : CellArray) (index : Nat) : Option Command :=
  (array.cells[index]?).bind Cell.command

/-- The fallthrough of an index. -/
def next? (array : CellArray) (index : Nat) : Option Nat :=
  (array.cells[index]?).bind Cell.next

/-- The array with another fallthrough at an index. -/
def setNext (array : CellArray) (index : Nat) (next : Option Nat) : CellArray :=
  { array with cells := array.cells.modify index fun cell => { cell with next := next } }

/-- The array with another command at an index. -/
def setCommand (array : CellArray) (index : Nat) (command : Command) : CellArray :=
  { array with
    cells := array.cells.modify index fun cell => { cell with command := some command } }

/-- The error of a fault at an index. -/
def fault (array : CellArray) (index : Nat) (fault : FlowFault) : Error :=
  .invariant ⟨array.method, index⟩ fault

/-- The first index with a command among the next `count` ones. -/
def scanCommand (array : CellArray) (index : Nat) : Nat → Option Nat
  | 0 => none
  | count + 1 =>
    if (array.command? index).isSome then some index else array.scanCommand (index + 1) count

/-- The first index with a command at or after an index. -/
def commandFrom? (array : CellArray) (index : Nat) : Option Nat :=
  array.scanCommand index (array.size - index)

/-- The first index with a command at or after an index, which has to exist. -/
def commandFrom (array : CellArray) (index : Nat) : Except Error Nat :=
  match array.commandFrom? index with
  | some found => .ok found
  | none => .error (array.fault index .noCommandAtOrAfter)

end CellArray

end CallNgrams
