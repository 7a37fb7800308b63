import CallNgrams.Proofs.Flow.Fixpoint
import CallNgrams.Proofs.Flow.MergePoints
import CallNgrams.Proofs.Flow.Passes

/-!
# Merge points are counted exactly

The walk over an array visits every reachable cell once, so the edges of each reachable cell are
reported once and those of the other cells are not reported. The merge points are therefore the
cells that at least two edges lead to from reachable cells, where parallel edges count separately
and entering the method counts as one more.
-/

namespace CallNgrams

/-- How many edges of a command lead to a destination, given its fallthrough. -/
def Command.edgesTo (next : Option Nat) (dest : Nat) : Command → Nat
  | .jump target => if target = dest then 1 else 0
  | .branch targets => targets.count dest + if next = some dest then 1 else 0
  | .call _ => if next = some dest then 1 else 0
  | .ret | .raise => 0

namespace CellArray

variable {array : CellArray} {cells : List Nat} {i j : Nat}

/-- How many edges lead from one cell to another. -/
def edgesBetween (array : CellArray) (i j : Nat) : Nat :=
  (array.command? i).elim 0 (Command.edgesTo (array.next? i) j)

open scoped Classical in
/-- How many edges lead to a cell from reachable ones, where entering the method is an edge to the
entrance. -/
noncomputable def arrivalCount (array : CellArray) (j : Nat) : Nat :=
  (∑ i ∈ Finset.range array.size with array.Reachable i, array.edgesBetween i j) +
    if array.entrance = j then 1 else 0

/-- A cell lists each of its edges once. -/
theorem count_edges {out : List Nat} (h : array.edges i = .ok out) :
    out.count j = array.edgesBetween i j := by
  unfold edges at h
  split at h
  · cases h
  case h_2 hc | h_3 hc =>
    obtain rfl := Except.ok.inj h
    rw [edgesBetween, hc]
    rfl
  case h_4 target hc =>
    obtain rfl := Except.ok.inj h
    rw [edgesBetween, hc, List.count_singleton]
    simp [Command.edgesTo]
  case h_5 targets hc =>
    split at h
    case h_1 next hn =>
      obtain rfl := Except.ok.inj h
      rw [edgesBetween, hc, hn, List.count_append, List.count_singleton]
      simp [Command.edgesTo]
    case h_2 => cases h
  case h_6 target hc =>
    split at h
    case h_1 next hn =>
      obtain rfl := Except.ok.inj h
      rw [edgesBetween, hc, hn, List.count_singleton]
      simp [Command.edgesTo]
    case h_2 => cases h

open scoped Classical in
/-- The edges of the reachable cells that lead to a cell, each cell counted once. -/
theorem Walked.count_edgesOf (h : array.Walked cells) (j : Nat) :
    (cells.flatMap array.edgesOf).count j =
      ∑ i ∈ Finset.range array.size with array.Reachable i, array.edgesBetween i j := by
  have hcells : cells.toFinset = (Finset.range array.size).filter array.Reachable := by
    ext i
    rw [List.mem_toFinset, Finset.mem_filter, Finset.mem_range, h.mem]
    refine ⟨fun hi => ⟨?_, hi⟩, And.right⟩
    obtain ⟨out, hout⟩ := h.known hi
    obtain ⟨command, hc, -⟩ := exists_command_of_edges hout
    exact lt_size_of_command? hc
  calc (cells.flatMap array.edgesOf).count j
      = (cells.map fun i => (array.edgesOf i).count j).sum := List.count_flatMap
    _ = ∑ i ∈ cells.toFinset, (array.edgesOf i).count j := (List.sum_toFinset _ h.nodup).symm
    _ = ∑ i ∈ cells.toFinset, array.edgesBetween i j := by
      refine Finset.sum_congr rfl fun i hi => ?_
      obtain ⟨out, hout⟩ := h.known (h.mem.mp (List.mem_toFinset.mp hi))
      rw [edgesOf_eq hout, count_edges hout]
    _ = _ := by rw [hcells]

/-- The arrivals at a cell that the walk counts are the edges from reachable cells. -/
theorem Walked.count_arrivals (h : array.Walked cells) (j : Nat) :
    (array.arrivals cells).count j = array.arrivalCount j := by
  rw [arrivals, List.count_cons, h.count_edgesOf, arrivalCount]
  simp only [beq_iff_eq]

open scoped Classical in
/-- Merge points are found exactly if control can go on at every reachable cell. They are then the
cells, in ascending order, that at least two edges lead to. Whatever is done with the reports of the
walk, each edge of each reachable cell is reported once, and no other edge is reported. -/
theorem mergePoints_exact (array : CellArray) :
    ((∃ points, array.mergePoints = .ok points) ↔ ∀ i, array.Reachable i →
        ∃ command, array.command? i = some command ∧ (command.Falls → (array.next? i).isSome)) ∧
      (∀ points, array.mergePoints = .ok points →
        points.Pairwise (· < ·) ∧ ∀ i, i ∈ points ↔ 2 ≤ array.arrivalCount i) ∧
      ∀ (σ : Type) (report : σ → Nat → σ) (state state' : σ),
        array.walkEdges report state = .ok state' → ∃ told : List Nat,
          state' = told.foldl report state ∧ ∀ j, told.count j =
            ∑ i ∈ Finset.range array.size with array.Reachable i, array.edgesBetween i j := by
  refine ⟨?_, fun points hpoints => ?_, fun σ report state state' hwalk => ?_⟩
  · rw [exists_mergePoints_iff]
    exact forall₂_congr fun i _ => exists_edges_iff
  · obtain ⟨hascending, cells, hcells, hmem⟩ := mem_mergePoints hpoints
    refine ⟨hascending, fun i => ?_⟩
    rw [hmem, hcells.count_arrivals]
  · obtain ⟨cells, hcells, hstate⟩ := exists_walked hwalk
    exact ⟨_, hstate, hcells.count_edgesOf⟩

/-- In `strayArray` edges of unreachable cells lead to the first three cells, which are no merge
points. -/
theorem mergePoints_exact_stray :
    strayArray.mergePoints = .ok [3, 4] ∧
      (strayArray.edgesBetween 5 0, strayArray.edgesBetween 5 1, strayArray.edgesBetween 6 2) =
        (1, 1, 1) ∧
      ∀ i, i ∈ [3, 4] ↔ 2 ≤ strayArray.arrivalCount i := by
  have hpoints : strayArray.mergePoints = .ok [3, 4] := by decide +kernel
  exact ⟨hpoints, by decide, ((mergePoints_exact strayArray).2.1 [3, 4] hpoints).2⟩

end CellArray

end CallNgrams
