import CallNgrams.Flow.Cell
import CallNgrams.Flow.Destinations

/-!
# Merging branches and dropping repeated calls

A branch that falls through into another branch takes over its targets, and a call that follows an
equal call is skipped. Both move every reference to a cell past that cell.
-/

namespace CallNgrams

/-- The command with one destination replaced by another. -/
def Command.redirect (old new : Nat) : Command → Command
  | .jump target => .jump (if target = old then new else target)
  | .branch targets =>
    if targets.contains old then
      .branch (Destinations.ofList (targets.map fun target => if target = old then new else target))
    else .branch targets
  | command => command

/-- The cell at an index with references to `old` moved to `new`; the fallthrough of the cell
`old` itself stays. -/
def Cell.redirect (old new index : Nat) (cell : Cell) : Cell where
  next := if index != old && cell.next == some old then some new else cell.next
  command := cell.command.map (Command.redirect old new)

namespace CellArray

/-- Moves every reference to `old`, the entrance among them, to `new`. -/
def redirect (array : CellArray) (old new : Nat) : CellArray :=
  { array with
    cells := array.cells.mapIdx fun index cell => cell.redirect old new index
    entrance := if array.entrance = old then new else array.entrance }

/-- Moves every reference to a cell past it, if it has a fallthrough. -/
def skip (array : CellArray) (index : Nat) (after : Option Nat) : CellArray :=
  match after with
  | some next => array.redirect index next
  | none => array

/-- The targets of a branch cell, and of no other. -/
def targets (array : CellArray) (index : Nat) : List Nat :=
  match array.command? index with
  | some (.branch targets) => targets
  | _ => []

/-- Takes over the branches that the branch at `index` falls through to, from `next` on. No cell is
taken over twice. -/
def absorb (index : Nat) : Nat → List Nat → Option Nat → CellArray → CellArray
  | 0, _, _, array => array
  | _ + 1, _, none, array => array
  | fuel + 1, done, some current, array =>
    if current ∈ done then array
    else
      match array.command? current with
      | some (.branch more) =>
        let after := array.next? current
        let merged := (array.targets index ++ more).filter (· != current)
        let array := array.setCommand index (.branch (Destinations.ofList merged))
        absorb index fuel (current :: done) after (array.skip current after)
      | _ => array

/-- Merges the branch at an index with those it falls through to. -/
def mergeBranchAt (array : CellArray) (index : Nat) : CellArray :=
  match array.command? index with
  | some (.branch targets) =>
    let array := array.setCommand index (.branch (Destinations.ofList targets))
    absorb index (array.size + 1) [index] (array.next? index) array
  | _ => array

/-- Merges every branch with those it falls through to. -/
def mergeBranches (array : CellArray) : CellArray :=
  (List.range array.size).foldl mergeBranchAt array

/-- Skips the calls of `target` in the chain of calls that starts at `next`. No cell is met
twice. -/
def skipRepeats (target : CallTarget) : Nat → List Nat → Option Nat → CellArray → CellArray
  | 0, _, _, array => array
  | _ + 1, _, none, array => array
  | fuel + 1, done, some current, array =>
    if current ∈ done then array
    else
      match array.command? current with
      | some (.call other) =>
        let after := array.next? current
        let array := if other = target then array.skip current after else array
        skipRepeats target fuel (current :: done) after array
      | _ => array

/-- Skips the calls that repeat the call at an index. -/
def removeRepetitionAt (array : CellArray) (index : Nat) : CellArray :=
  match array.command? index with
  | some (.call target) =>
    skipRepeats target (array.size + 1) [index] (array.next? index) array
  | _ => array

/-- Skips every call that repeats an earlier one of its chain of calls. -/
def removeRepetitions (array : CellArray) : CellArray :=
  (List.range array.size).foldl removeRepetitionAt array

end CellArray

end CallNgrams
