import CallNgrams.Flow.Cell

/-!
# Linked methods

The cells that hold a command become the nodes of a linked method. A first pass numbers these cells
in the order of their indices and notes the number of each in a table; the number of a node is its
handle. A second pass replaces every destination by the handle of the first command at or after it.
-/

namespace CallNgrams

/-- A program point of a linked method. Its destinations are handles. -/
structure LinkedNode where
  index : Nat
  next : Option Nat
  command : Command
deriving DecidableEq, Repr

/-- A linked method: its nodes by handle, the handles by index, the handle of the start and the
indices of the merge points. -/
structure LinkedGraph where
  nodes : Array LinkedNode
  byIndex : Array (Option Nat)
  start : Nat
  mergePoints : List Nat
deriving DecidableEq, Repr

namespace LinkedGraph

/-- The node of a handle. -/
def node? (graph : LinkedGraph) (handle : Nat) : Option LinkedNode :=
  graph.nodes[handle]?

/-- The handle of the node at an index, if there is one. -/
def nodeAt? (graph : LinkedGraph) (index : Nat) : Option Nat :=
  (graph.byIndex[index]?).join

end LinkedGraph

/-- A command with each destination replaced by what is located for it. -/
def Command.link (locate : Nat → Except Error Nat) : Command → Except Error Command
  | .jump target => (locate target).map .jump
  | .branch targets => (targets.mapM locate).map .branch
  | command => .ok command

/-- A cell that holds a command, with its index. -/
structure CommandCell where
  index : Nat
  next : Option Nat
  command : Command
deriving DecidableEq, Repr

/-- The cells with a command by handle, and the handles by index. -/
structure Numbering where
  commands : Array CommandCell
  byIndex : Array (Option Nat)
deriving DecidableEq, Repr

/-- Gives the next handle to a cell. -/
def Numbering.add (numbering : Numbering) (cell : CommandCell) : Numbering where
  commands := numbering.commands.push cell
  byIndex := numbering.byIndex.setIfInBounds cell.index (some numbering.commands.size)

namespace CellArray

/-- The cell at an index, if it holds a command. -/
def commandCell? (array : CellArray) (index : Nat) : Option CommandCell :=
  (array.command? index).map fun command => ⟨index, array.next? index, command⟩

/-- Gives the next handle to the cell at an index, if it holds a command. -/
def numberCell (array : CellArray) (numbering : Numbering) (index : Nat) : Numbering :=
  match array.commandCell? index with
  | some cell => numbering.add cell
  | none => numbering

/-- The handles of all cells that hold a command. -/
def numbering (array : CellArray) : Numbering :=
  (List.range array.size).foldl array.numberCell ⟨#[], Array.replicate array.size none⟩

/-- The handle of the first command at or after an index. -/
def locate (array : CellArray) (byIndex : Array (Option Nat)) (index : Nat) : Except Error Nat := do
  let found ← array.commandFrom index
  match (byIndex[found]?).join with
  | some handle => .ok handle
  | none => .error (array.fault index .unlinkedCommand)

/-- The node of a cell: first its command is linked, then its fallthrough. -/
def linkNode (array : CellArray) (byIndex : Array (Option Nat)) (cell : CommandCell) :
    Except Error LinkedNode := do
  let command ← cell.command.link (array.locate byIndex)
  let next ← match cell.next with
    | some next => (array.locate byIndex next).map some
    | none => .ok none
  .ok ⟨cell.index, next, command⟩

/-- The linked method of the cells as they are, with the given merge points. -/
def linkNodes (array : CellArray) (mergePoints : List Nat) : Except Error LinkedGraph := do
  let numbering := array.numbering
  let nodes ← numbering.commands.toList.mapM (array.linkNode numbering.byIndex)
  let start ← array.locate numbering.byIndex array.entrance
  .ok ⟨nodes.toArray, numbering.byIndex, start, mergePoints⟩

end CellArray

end CallNgrams
