import CallNgrams.Flow.Cell
import CallNgrams.Flow.Destinations

/-!
# Collapsing jumps

Every destination is replaced by the command that control ends up at after following jumps. A cycle
of nothing but jumps ends at its highest index. A branch whose destinations all turn out to be its
fallthrough becomes a jump, which can make further destinations collapse, so the pass over the
cells is repeated until it simplifies no branch.
-/

namespace CallNgrams.CellArray

/-- The number of cells with a command. -/
def commandCount (array : CellArray) : Nat :=
  array.cells.foldl (fun count cell => if cell.command.isSome then count + 1 else count) 0

/-- Follows jumps from a destination, for as many steps as there are commands. Jumps that are not
over then run in a circle, and the highest index that was met is the highest of all on the way. A
jump to itself is such a circle at once. -/
def chase (array : CellArray) : Nat → Nat → Nat → Except Error Nat
  | 0, highest, _ => .ok highest
  | steps + 1, highest, dest => do
    let found ← array.commandFrom dest
    match array.command? found with
    | some (.jump target) => do
      let target ← array.commandFrom target
      let highest := max highest found
      if target = found then .ok highest else array.chase steps highest target
    | _ => .ok found

/-- The command that control ends up at when it goes to an index, in an array with so many
commands. -/
def finalDestination (array : CellArray) (commands dest : Nat) : Except Error Nat :=
  array.chase (commands + 1) 0 dest

/-- The collapsed fallthrough of an index. -/
def finalNext (array : CellArray) (commands index : Nat) : Except Error (Option Nat) :=
  match array.next? index with
  | some next => (array.finalDestination commands next).map some
  | none => .ok none

/-- Collapses the destinations of a branch; says whether the branch became a jump. -/
def collapseBranch (array : CellArray) (commands index : Nat) (targets : List Nat) :
    Except Error (CellArray × Bool) := do
  let found ← targets.mapM (array.finalDestination commands)
  let dests := Destinations.ofList (found.filter (· != index + 1))
  match array.next? index with
  | some next =>
    if dests.isEmpty || dests == [next] then .ok (array.setCommand index (.jump next), true)
    else .ok (array.setCommand index (.branch dests), false)
  | none =>
    if dests.isEmpty then .error (array.fault index .branchWithoutFallthrough)
    else .ok (array.setCommand index (.branch dests), false)

/-- Collapses the destinations of one cell, its fallthrough first. -/
def collapseCell (commands : Nat) (array : CellArray) (index : Nat) :
    Except Error (CellArray × Bool) := do
  let next ← array.finalNext commands index
  let array := array.setNext index next
  match array.command? index with
  | some (.jump target) => do
    let target ← array.finalDestination commands target
    .ok (array.setCommand index (.jump target), false)
  | some (.branch targets) => array.collapseBranch commands index targets
  | _ => .ok (array, false)

/-- Collapses every cell in turn; later cells see what became of the earlier ones. -/
def collapsePass (commands : Nat) (array : CellArray) : Except Error (CellArray × Bool) :=
  (List.range array.size).foldlM (fun (array, changed) index => do
    let (array, simplified) ← collapseCell commands array index
    .ok (array, changed || simplified)) (array, false)

/-- Repeats the pass while it simplifies a branch. Each such pass leaves fewer branches. -/
def collapseCells (commands : Nat) : Nat → CellArray → Except Error CellArray
  | 0, array => .ok array
  | fuel + 1, array => do
    let (array, changed) ← collapsePass commands array
    if changed then collapseCells commands fuel array else .ok array

/-- Collapses all jumps of a method. -/
def collapseJumps (array : CellArray) : Except Error CellArray := do
  let commands := array.commandCount
  let array ← collapseCells commands (array.size + 1) array
  let entrance ← array.finalDestination commands array.entrance
  .ok { array with entrance := entrance }

end CallNgrams.CellArray
