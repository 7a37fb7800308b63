import CallNgrams.Flow.Decode
import CallNgrams.Flow.Jumps
import CallNgrams.Flow.Link
import CallNgrams.Flow.Merge
import CallNgrams.Flow.Reach

/-!
# Method graphs

A compiled method: the program points that hold a command, with every destination resolved to such
a point, the start and the merge points. Compiling collapses jumps, checks that control can go on
wherever it gets, merges branches, skips repeated calls if asked to, and links. Calls are reported
by their indices, so a compiled method addresses its nodes by index and no longer by handle.
-/

namespace CallNgrams

/-- A program point of a compiled method. -/
structure Node where
  next : Option Nat
  command : Command
deriving DecidableEq, Repr

/-- A compiled method. Nodes are addressed by their index in the method. -/
structure MethodGraph where
  nodes : Array (Option Node)
  start : Nat
  mergePoints : List Nat
deriving DecidableEq, Repr

namespace MethodGraph

/-- The node at an index. -/
def node? (graph : MethodGraph) (index : Nat) : Option Node :=
  (graph.nodes[index]?).join

/-- The nodes with their indices, in ascending order. -/
def nodeList (graph : MethodGraph) : List (Nat × Node) :=
  (List.range graph.nodes.size).filterMap fun index =>
    (graph.node? index).map fun node => (index, node)

/-- Whether at least two edges lead to an index. -/
def isMergePoint (graph : MethodGraph) (index : Nat) : Bool :=
  graph.mergePoints.contains index

end MethodGraph

/-- A command with other names for its destinations. -/
def Command.rename (name : Nat → Nat) : Command → Command
  | .jump target => .jump (name target)
  | .branch targets => .branch (targets.map name)
  | command => command

namespace LinkedGraph

/-- The index of the node of a handle. Every handle in a linked method has a node. -/
def indexOf (graph : LinkedGraph) (handle : Nat) : Nat :=
  ((graph.node? handle).map LinkedNode.index).getD 0

/-- A node whose destinations are given by their indices. -/
def indexedNode (graph : LinkedGraph) (node : LinkedNode) : Node where
  next := node.next.map graph.indexOf
  command := node.command.rename graph.indexOf

/-- The method with its nodes addressed by their indices. -/
def indexed (graph : LinkedGraph) : MethodGraph where
  nodes := (Array.range graph.byIndex.size).map fun index =>
    ((graph.nodeAt? index).bind graph.node?).map graph.indexedNode
  start := graph.indexOf graph.start
  mergePoints := graph.mergePoints

end LinkedGraph

namespace CellArray

/-- The graph of the cells as they are, with the given merge points. -/
def link (array : CellArray) (mergePoints : List Nat) : Except Error MethodGraph :=
  (array.linkNodes mergePoints).map LinkedGraph.indexed

/-- Runs all passes over the cells and links the result. -/
def toGraph (array : CellArray) (removeRepetition : Bool) : Except Error MethodGraph := do
  let array ← array.collapseJumps
  array.checkReachable
  let array := array.mergeBranches
  let array := if removeRepetition then array.removeRepetitions else array
  let mergePoints ← array.mergePoints
  array.link mergePoints

end CellArray

/-- Compiles a method body. -/
def Body.compile (hierarchy : Option ClassHierarchy) (removeRepetition : Bool) (method : MethodKey)
    (body : Body) : Except Error MethodGraph := do
  let array ← CellArray.ofBody hierarchy method body
  array.toGraph removeRepetition

end CallNgrams
