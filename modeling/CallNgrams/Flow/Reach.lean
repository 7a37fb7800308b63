import CallNgrams.Flow.Cell
import Std.Data.TreeMap

/-!
# Reachable cells and merge points

A depth-first walk from the entrance visits each reachable cell once and requires it to have a
command and, where control can fall through, a fallthrough. When it visits a cell, it reports where
the edges of the cell lead. A merge point is an index that is reported at least twice, where
entering the method counts as a report of the entrance.
-/

namespace CallNgrams.CellArray

/-- Where control can go from a cell: the targets in order, then the fallthrough. -/
def edges (array : CellArray) (index : Nat) : Except Error (List Nat) :=
  match array.command? index with
  | none => .error (array.fault index .reachableWithoutCommand)
  | some .ret | some .raise => .ok []
  | some (.jump target) => .ok [target]
  | some (.branch targets) =>
    match array.next? index with
    | some next => .ok (targets ++ [next])
    | none => .error (array.fault index .missingFallthrough)
  | some (.call _) =>
    match array.next? index with
    | some next => .ok [next]
    | none => .error (array.fault index .missingFallthrough)

/-- The edges of a cell that has passed the walk. -/
def edgesOf (array : CellArray) (index : Nat) : List Nat :=
  match array.edges index with
  | .ok out => out
  | .error _ => []

/-- The number of edges of all cells together. -/
def edgeCount (array : CellArray) : Nat :=
  ((List.range array.size).map fun index => (array.edgesOf index).length).foldl (· + ·) 0

section Walk

variable {σ : Type}

/-- Visits the pending cells and all that they lead to, the last edge of a cell first, and reports
where the edges of each visited cell lead. A cell is expanded once, so no more than all edges are
ever pending. -/
def visit (array : CellArray) (report : σ → Nat → σ) :
    Nat → List Nat → Array Bool → σ → Except Error σ
  | 0, _, _, state => .ok state
  | _ + 1, [], _, state => .ok state
  | fuel + 1, index :: pending, seen, state =>
    if (seen[index]?).getD false then array.visit report fuel pending seen state
    else do
      let out ← array.edges index
      array.visit report fuel (out.reverse ++ pending) (seen.setIfInBounds index true)
        (out.foldl report state)

/-- Walks over the reachable cells, if all of them are in order, and reports where their edges
lead. -/
def walkEdges (array : CellArray) (report : σ → Nat → σ) (state : σ) : Except Error σ :=
  array.visit report (array.edgeCount + 2) [array.entrance] (Array.replicate array.size false) state

end Walk

/-- Checks that control never reaches a cell where it cannot go on. -/
def checkReachable (array : CellArray) : Except Error Unit :=
  array.walkEdges (fun _ _ => ()) ()

/-- Counts one more edge that leads to an index. -/
def countArrival (incoming : Std.TreeMap Nat Nat) (dest : Nat) : Std.TreeMap Nat Nat :=
  incoming.insert dest (incoming.getD dest 0 + 1)

/-- The indices that at least two edges lead to, in ascending order. -/
def mergePoints (array : CellArray) : Except Error (List Nat) := do
  let incoming ← array.walkEdges countArrival (countArrival ∅ array.entrance)
  .ok ((incoming.toList.filter fun entry => decide (2 ≤ entry.2)).map Prod.fst)

end CallNgrams.CellArray
