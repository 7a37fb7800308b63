import Mathlib.Algebra.BigOperators.Group.Finset.Basic
import Mathlib.Logic.Relation
import CallNgrams.Proofs.Flow.Cell
import CallNgrams.Proofs.Loop

/-!
# The walk over reachable cells

If the walk from the entrance succeeds, the cells that it visits are the reachable ones: edges lead
to each of them, and they are closed under the edges of the array. So control can go on wherever it
gets. Each of them is visited once, so its edges are reported once, and those of other cells are not
reported. The bound of the walk is never used up: each round takes one pending cell, and the edges
of a cell become pending once.
-/

namespace CallNgrams.CellArray

open Relation

variable {array : CellArray} {i j : Nat}

/-- Control can go from one cell to another. -/
def Edge (array : CellArray) (i j : Nat) : Prop :=
  ∃ site, array.Step i site j

/-- Control can get to a cell from the entrance. -/
def Reachable (array : CellArray) (i : Nat) : Prop :=
  ReflTransGen array.Edge array.entrance i

/-- The edges of a cell are the moves of its command. -/
theorem edge_iff {command : Command} (h : array.command? i = some command) :
    array.Edge i j ↔ ∃ site, command.Moves i (array.next? i) site j := by
  constructor
  · rintro ⟨site, command', hc, hm⟩
    obtain rfl := Option.some.inj (h.symm.trans hc)
    exact ⟨site, hm⟩
  · rintro ⟨site, hm⟩
    exact ⟨site, command, h, hm⟩

/-- The computed edges of a cell are the cells that control can go to. -/
theorem mem_edges {out : List Nat} (h : array.edges i = .ok out) : j ∈ out ↔ array.Edge i j := by
  unfold edges at h
  split at h
  · cases h
  case h_2 hc | h_3 hc =>
    obtain rfl := Except.ok.inj h
    rw [edge_iff hc]
    constructor
    · intro hj
      cases hj
    · rintro ⟨_, hm⟩
      cases hm
  case h_4 target hc =>
    obtain rfl := Except.ok.inj h
    rw [edge_iff hc, List.mem_singleton]
    constructor
    · rintro rfl
      exact ⟨none, .jump⟩
    · rintro ⟨_, hm⟩
      cases hm
      rfl
  case h_5 targets hc =>
    split at h
    case h_1 next hn =>
      obtain rfl := Except.ok.inj h
      rw [edge_iff hc, hn, List.mem_append, List.mem_singleton]
      constructor
      · rintro (hj | rfl)
        · exact ⟨none, .choose hj⟩
        · exact ⟨none, .decline rfl⟩
      · rintro ⟨_, hm⟩
        cases hm with
        | choose ht => exact .inl ht
        | decline hd => exact .inr (Option.some.inj hd).symm
    case h_2 => cases h
  case h_6 target hc =>
    split at h
    case h_1 next hn =>
      obtain rfl := Except.ok.inj h
      rw [edge_iff hc, hn, List.mem_singleton]
      constructor
      · rintro rfl
        exact ⟨some ⟨i, target⟩, .call rfl⟩
      · rintro ⟨_, hm⟩
        cases hm with
        | call hd => exact (Option.some.inj hd).symm
    case h_2 => cases h

/-- A cell with edges holds a command and, where control can fall through, a fallthrough. -/
theorem exists_command_of_edges {out : List Nat} (h : array.edges i = .ok out) :
    ∃ command, array.command? i = some command ∧ (command.Falls → (array.next? i).isSome) := by
  unfold edges at h
  split at h
  · cases h
  case h_2 hc | h_3 hc | h_4 hc => exact ⟨_, hc, False.elim⟩
  case h_5 hc | h_6 hc =>
    refine ⟨_, hc, fun _ => ?_⟩
    split at h
    case h_1 hn =>
      rw [hn]
      rfl
    case h_2 => cases h

/-- The edges of a cell are known exactly if it holds a command and, where control can fall through,
a fallthrough. -/
theorem exists_edges_iff : (∃ out, array.edges i = .ok out) ↔
    ∃ command, array.command? i = some command ∧ (command.Falls → (array.next? i).isSome) := by
  constructor
  · rintro ⟨out, hout⟩
    exact exists_command_of_edges hout
  · rintro ⟨command, hc, hfalls⟩
    rw [edges, hc]
    cases command with
    | ret | raise | jump _ => exact ⟨_, rfl⟩
    | branch _ | call _ =>
      obtain ⟨next, hnext⟩ := Option.isSome_iff_exists.mp (hfalls trivial)
      simp only [hnext]
      exact ⟨_, rfl⟩

theorem edgesOf_eq {out : List Nat} (h : array.edges i = .ok out) : array.edgesOf i = out := by
  rw [edgesOf, h]

/-! ## The bound of the walk -/

/-- Whether the walk has been at a cell. -/
def Seen (seen : Array Bool) (i : Nat) : Prop :=
  (seen[i]?).getD false = true

instance (seen : Array Bool) (i : Nat) : Decidable (Seen seen i) :=
  inferInstanceAs (Decidable (_ = true))

theorem not_seen_replicate {size : Nat} : ¬Seen (Array.replicate size false) i := by
  rw [Seen, Array.getElem?_replicate]
  split <;> simp

/-- A cell that is marked has been seen, and so have the others as before. -/
theorem seen_setIfInBounds {seen : Array Bool} (hi : i < seen.size) :
    Seen (seen.setIfInBounds i true) j ↔ j = i ∨ Seen seen j := by
  rw [Seen, Seen, Array.getElem?_setIfInBounds]
  by_cases h : i = j
  · subst j
    simp [hi]
  · simp [h, Ne.symm h]

/-- The edges of the cells that the walk has not been at. -/
def unseenEdges (array : CellArray) (seen : Array Bool) : Nat :=
  ∑ i ∈ (Finset.range array.size).filter fun i => ¬Seen seen i, (array.edgesOf i).length

/-- All edges, counted cell by cell. -/
theorem edgeCount_eq (array : CellArray) :
    array.edgeCount = ∑ i ∈ Finset.range array.size, (array.edgesOf i).length := by
  rw [edgeCount]
  induction array.size with
  | zero => rfl
  | succ size ih =>
    rw [List.range_succ, List.map_append, List.foldl_append, ih, Finset.sum_range_succ]
    rfl

theorem unseenEdges_replicate (array : CellArray) :
    array.unseenEdges (Array.replicate array.size false) = array.edgeCount := by
  rw [unseenEdges, edgeCount_eq, Finset.filter_true_of_mem]
  exact fun i _ => not_seen_replicate

/-- Visiting a cell takes its edges away from those that have not been seen. -/
theorem unseenEdges_set {seen : Array Bool} (hsize : seen.size = array.size) (hi : i < array.size)
    (hseen : ¬Seen seen i) :
    (array.edgesOf i).length + array.unseenEdges (seen.setIfInBounds i true) =
      array.unseenEdges seen := by
  have hmem : i ∈ (Finset.range array.size).filter fun i => ¬Seen seen i :=
    Finset.mem_filter.mpr ⟨Finset.mem_range.mpr hi, hseen⟩
  have herase : ((Finset.range array.size).filter fun j => ¬Seen (seen.setIfInBounds i true) j) =
      ((Finset.range array.size).filter fun j => ¬Seen seen j).erase i := by
    ext j
    simp only [Finset.mem_filter, Finset.mem_erase, seen_setIfInBounds (hsize ▸ hi), not_or]
    tauto
  rw [unseenEdges, unseenEdges, herase]
  exact Finset.add_sum_erase _ (fun i => (array.edgesOf i).length) hmem

/-! ## What a walk visits -/

/-- The cells that a walk visits one after the other, given those that are pending and those that it
has been at. They are new, each is visited once, and its edges are known. All that is pending, or
that their edges lead to, has been seen then, and edges lead to them from pending cells only. -/
structure Visits (array : CellArray) (pending : List Nat) (seen : Array Bool)
    (visited : List Nat) : Prop where
  nodup : visited.Nodup
  unseen {i : Nat} : i ∈ visited → ¬Seen seen i
  known {i : Nat} : i ∈ visited → ∃ out, array.edges i = .ok out
  covers {i : Nat} : i ∈ pending → Seen seen i ∨ i ∈ visited
  closed {i j : Nat} : i ∈ visited → array.Edge i j → Seen seen j ∨ j ∈ visited
  way {i : Nat} : i ∈ visited → ∃ p ∈ pending, ReflTransGen array.Edge p i

namespace Visits

variable {pending visited : List Nat} {seen seen' : Array Bool}

theorem nil (array : CellArray) (seen : Array Bool) : array.Visits [] seen [] where
  nodup := List.nodup_nil
  unseen hi := absurd hi List.not_mem_nil
  known hi := absurd hi List.not_mem_nil
  covers hi := absurd hi List.not_mem_nil
  closed hi := absurd hi List.not_mem_nil
  way hi := absurd hi List.not_mem_nil

/-- A pending cell that has been seen is passed over. -/
theorem skip (h : array.Visits pending seen visited) (hseen : Seen seen i) :
    array.Visits (i :: pending) seen visited where
  nodup := h.nodup
  unseen := h.unseen
  known := h.known
  covers hj := by
    rcases List.mem_cons.mp hj with rfl | hj
    · exact .inl hseen
    · exact h.covers hj
  closed := h.closed
  way hj := by
    obtain ⟨p, hp, hway⟩ := h.way hj
    exact ⟨p, List.mem_cons_of_mem _ hp, hway⟩

/-- A pending cell that has not been seen is visited, and what its edges lead to is pending. -/
theorem expand {out : List Nat} (h : array.Visits (out.reverse ++ pending) seen' visited)
    (hout : array.edges i = .ok out) (hnew : ¬Seen seen i)
    (hset : ∀ j, Seen seen' j ↔ j = i ∨ Seen seen j) :
    array.Visits (i :: pending) seen (i :: visited) := by
  -- what the rest of the walk has seen is the cell, what was seen before, or visited by the rest
  have hcover {j : Nat} (hj : Seen seen' j ∨ j ∈ visited) : Seen seen j ∨ j ∈ i :: visited := by
    rw [hset j] at hj
    rcases hj with (rfl | hj) | hj
    · exact .inr List.mem_cons_self
    · exact .inl hj
    · exact .inr (List.mem_cons_of_mem _ hj)
  refine ⟨List.nodup_cons.mpr ⟨fun hi => h.unseen hi ((hset i).mpr (.inl rfl)), h.nodup⟩, ?_, ?_,
    ?_, ?_, ?_⟩
  · intro j hj
    rcases List.mem_cons.mp hj with rfl | hj
    · exact hnew
    · exact fun hseen => h.unseen hj ((hset j).mpr (.inr hseen))
  · intro j hj
    rcases List.mem_cons.mp hj with rfl | hj
    · exact ⟨out, hout⟩
    · exact h.known hj
  · intro j hj
    rcases List.mem_cons.mp hj with rfl | hj
    · exact .inr List.mem_cons_self
    · exact hcover (h.covers (List.mem_append_right _ hj))
  · intro j k hj hedge
    rcases List.mem_cons.mp hj with rfl | hj
    · have hmem := (mem_edges hout).mpr hedge
      exact hcover (h.covers (List.mem_append_left _ (List.mem_reverse.mpr hmem)))
    · exact hcover (h.closed hj hedge)
  · intro j hj
    rcases List.mem_cons.mp hj with rfl | hj
    · exact ⟨j, List.mem_cons_self, .refl⟩
    · obtain ⟨p, hp, hway⟩ := h.way hj
      rcases List.mem_append.mp hp with hp | hp
      · have hedge := (mem_edges hout).mp (List.mem_reverse.mp hp)
        exact ⟨i, List.mem_cons_self, .head hedge hway⟩
      · exact ⟨p, List.mem_cons_of_mem _ hp, hway⟩

end Visits

section Walk

variable {σ : Type} {report : σ → Nat → σ} {state state' : σ} {fuel : Nat} {pending : List Nat}
  {seen : Array Bool}

/-- A walk with enough rounds visits cells one after the other, and reports where the edges of each
lead when it visits the cell. -/
theorem exists_visits (h : array.visit report fuel pending seen state = .ok state')
    (hsize : seen.size = array.size) (hfuel : pending.length + array.unseenEdges seen < fuel) :
    ∃ visited, array.Visits pending seen visited ∧
      state' = (visited.flatMap array.edgesOf).foldl report state := by
  induction fuel generalizing pending seen state with
  | zero => omega
  | succ fuel ih =>
    cases pending with
    | nil =>
      obtain rfl : state = state' := Except.ok.inj h
      exact ⟨[], .nil array seen, rfl⟩
    | cons index pending =>
      rw [List.length_cons] at hfuel
      rw [visit] at h
      split at h
      case isTrue hseen =>
        obtain ⟨visited, hvisits, hstate⟩ := ih h hsize (by omega)
        exact ⟨visited, hvisits.skip hseen, hstate⟩
      case isFalse hnew =>
        obtain ⟨out, hout, h⟩ := exists_of_bind_eq_ok h
        obtain ⟨command, hcommand, -⟩ := exists_command_of_edges hout
        have hlt := lt_size_of_command? hcommand
        have hcount := unseenEdges_set hsize hlt hnew
        rw [edgesOf_eq hout] at hcount
        obtain ⟨visited, hvisits, hstate⟩ := ih h (by simpa using hsize) (by
          rw [List.length_append, List.length_reverse]
          omega)
        refine ⟨index :: visited,
          hvisits.expand hout hnew fun j => seen_setIfInBounds (hsize ▸ hlt), ?_⟩
        rw [hstate, List.flatMap_cons, List.foldl_append, edgesOf_eq hout]

/-- The reachable cells, each listed once, with known edges. -/
structure Walked (array : CellArray) (cells : List Nat) : Prop where
  nodup : cells.Nodup
  mem {i : Nat} : i ∈ cells ↔ array.Reachable i
  known {i : Nat} : array.Reachable i → ∃ out, array.edges i = .ok out

/-- The walk from the entrance visits the reachable cells and no others. -/
theorem Visits.walked {cells : List Nat}
    (h : array.Visits [array.entrance] (Array.replicate array.size false) cells) :
    array.Walked cells := by
  have hmem {i : Nat} : i ∈ cells ↔ array.Reachable i := by
    constructor
    · intro hi
      obtain ⟨p, hp, hway⟩ := h.way hi
      obtain rfl := List.mem_singleton.mp hp
      exact hway
    · intro hi
      induction hi with
      | refl => exact (h.covers List.mem_cons_self).resolve_left not_seen_replicate
      | tail _ hedge ih => exact (h.closed ih hedge).resolve_left not_seen_replicate
  exact ⟨h.nodup, hmem, fun hi => h.known (hmem.mpr hi)⟩

/-- A walk that succeeds lists the reachable cells, and what it reports are the edges of each of
them, one cell after the other. -/
theorem exists_walked (h : array.walkEdges report state = .ok state') :
    ∃ cells, array.Walked cells ∧ state' = (cells.flatMap array.edgesOf).foldl report state := by
  obtain ⟨cells, hvisits, hstate⟩ := exists_visits h (by simp) (by
    rw [unseenEdges_replicate, List.length_singleton]
    omega)
  exact ⟨cells, hvisits.walked, hstate⟩

/-- The walk does not fail if the edges of all pending cells, and of those that they lead to, are
known. -/
theorem exists_visit {P : Nat → Prop}
    (hedges : ∀ i, P i → ∃ out, array.edges i = .ok out ∧ ∀ j ∈ out, P j) (fuel : Nat)
    (hpending : ∀ i ∈ pending, P i) (seen : Array Bool) (state : σ) :
    ∃ state', array.visit report fuel pending seen state = .ok state' := by
  induction fuel generalizing pending seen state with
  | zero => exact ⟨state, rfl⟩
  | succ fuel ih =>
    cases pending with
    | nil => exact ⟨state, rfl⟩
    | cons index pending =>
      have hrest : ∀ i ∈ pending, P i := fun i hi => hpending i (List.mem_cons_of_mem _ hi)
      rw [visit]
      split
      case isTrue => exact ih hrest seen state
      case isFalse =>
        obtain ⟨out, hout, hnext⟩ := hedges index (hpending index List.mem_cons_self)
        rw [hout]
        refine ih (fun i hi => ?_) _ _
        rcases List.mem_append.mp hi with hi | hi
        · exact hnext i (List.mem_reverse.mp hi)
        · exact hrest i hi

/-- Control can go on at every cell that it gets to. -/
def Walkable (array : CellArray) : Prop :=
  ∀ i, array.Reachable i → ∃ out, array.edges i = .ok out

/-- The walk succeeds exactly if control can go on wherever it gets, whatever is done with the
reports. -/
theorem exists_walkEdges_iff (report : σ → Nat → σ) (state : σ) :
    (∃ state', array.walkEdges report state = .ok state') ↔ array.Walkable := by
  constructor
  · rintro ⟨state', h⟩ i hi
    obtain ⟨cells, hcells, -⟩ := exists_walked h
    exact hcells.known hi
  · intro hedges
    refine exists_visit (P := array.Reachable) (fun i hi => ?_) (array.edgeCount + 2)
      (List.forall_mem_singleton.mpr .refl) (Array.replicate array.size false) state
    obtain ⟨out, hout⟩ := hedges i hi
    exact ⟨out, hout, fun j hj => hi.tail ((mem_edges hout).mp hj)⟩

end Walk

/-- The check succeeds if control can go on wherever it gets. -/
theorem checkReachable_eq_ok_iff : array.checkReachable = .ok () ↔ array.Walkable := by
  rw [← exists_walkEdges_iff (fun _ _ => ()) (), checkReachable]
  constructor
  · exact fun h => ⟨(), h⟩
  · rintro ⟨_, h⟩
    exact h

/-! ## Counted reports -/

section Arrivals

variable {incoming : Std.TreeMap Nat Nat} {points : List Nat}

/-- An arrival is counted at its cell only. -/
theorem getD_countArrival (dest : Nat) :
    (countArrival incoming dest).getD j 0 = incoming.getD j 0 + if dest = j then 1 else 0 := by
  rw [countArrival, Std.TreeMap.getD_insert]
  simp only [Std.LawfulEqOrd.compare_eq_iff_eq]
  split
  case isTrue h => rw [h]
  case isFalse => rfl

/-- The number of an index grows by the number of its reports. -/
theorem getD_foldl_countArrival (dests : List Nat) :
    (dests.foldl countArrival incoming).getD j 0 = incoming.getD j 0 + dests.count j := by
  induction dests generalizing incoming with
  | nil => rfl
  | cons dest dests ih =>
    rw [List.foldl_cons, ih, getD_countArrival, List.count_cons, Nat.add_assoc,
      Nat.add_comm (dests.count j)]
    simp only [beq_iff_eq]

/-- The destinations of all edges of the given cells, and the entrance. -/
def arrivals (array : CellArray) (cells : List Nat) : List Nat :=
  array.entrance :: cells.flatMap array.edgesOf

/-- Merge points are found wherever the walk succeeds. -/
theorem exists_mergePoints_iff :
    (∃ points, array.mergePoints = .ok points) ↔ array.Walkable := by
  rw [← exists_walkEdges_iff countArrival (countArrival ∅ array.entrance)]
  simp only [mergePoints, exists_bind_ok_iff, Except.ok.injEq, exists_eq', and_true]

/-- The merge points ascend, and they are the cells that at least two edges of reachable cells lead
to. -/
theorem mem_mergePoints (h : array.mergePoints = .ok points) :
    points.Pairwise (· < ·) ∧ ∃ cells, array.Walked cells ∧
      ∀ i, i ∈ points ↔ 2 ≤ (array.arrivals cells).count i := by
  obtain ⟨incoming, hwalk, h⟩ := exists_of_bind_eq_ok h
  obtain rfl := Except.ok.inj h
  constructor
  · have hkeys := Std.TreeMap.ordered_keys (t := incoming)
    rw [← Std.TreeMap.map_fst_toList_eq_keys] at hkeys
    refine List.Pairwise.imp (fun hlt => Nat.compare_eq_lt.mp hlt) (hkeys.sublist ?_)
    exact List.filter_sublist.map Prod.fst
  · obtain ⟨cells, hcells, hincoming⟩ := exists_walked hwalk
    refine ⟨cells, hcells, fun i => ?_⟩
    have hcount : incoming.getD i 0 = (array.arrivals cells).count i := by
      rw [hincoming, getD_foldl_countArrival, getD_countArrival, arrivals, List.count_cons,
        Nat.add_comm]
      simp [Std.TreeMap.getD_emptyc]
    rw [← hcount, Std.TreeMap.getD_eq_getD_getElem?]
    simp only [List.mem_map, List.mem_filter, Prod.exists, exists_and_right, exists_eq_right,
      Std.TreeMap.mem_toList_iff_getElem?_eq_some, decide_eq_true_eq]
    cases incoming[i]? with
    | none => simp
    | some count => simp

end Arrivals

/-- In a resolved array control only gets to cells with commands. -/
theorem Resolved.isSome_of_reachable (h : array.Resolved) (hi : array.Reachable i) :
    (array.command? i).isSome := by
  cases hi with
  | refl => exact h.entrance
  | tail _ hedge =>
    obtain ⟨site, hstep⟩ := hedge
    exact h.isSome_of_step hstep

/-- Control can go on wherever it gets in a resolved array. -/
theorem Resolved.walkable (h : array.Resolved) : array.Walkable := by
  intro i hi
  obtain ⟨command, hc⟩ := Option.isSome_iff_exists.mp (h.isSome_of_reachable hi)
  exact exists_edges_iff.mpr ⟨command, hc, h.falls hc⟩

end CallNgrams.CellArray
