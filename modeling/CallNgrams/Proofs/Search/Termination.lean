import Mathlib.Algebra.Order.BigOperators.Group.List
import Mathlib.Data.Finset.Card
import Mathlib.Tactic.GCongr
import Mathlib.Tactic.Ring
import CallNgrams.Proofs.Flow.MergePoints
import CallNgrams.Proofs.Search.Task

/-!
# Searches end

The steps that a path has left are bounded by the budget, with the steps of one activation for each
call that it can pay for, and by the steps of the live activations. An activation marks a new merge
point with each loop that it goes round, and between two merge points it comes to a program point
at most once. A return goes on with the old marks of the caller, but the call has been paid for.
-/

namespace CallNgrams

open Relation

/-! ## Steps of one activation -/

namespace MethodGraph

variable {graph : MethodGraph} {marks : List Nat} {i j : Nat}

open Classical in
/-- The number of nodes that control can get to without passing a merge point. -/
noncomputable def ahead (graph : MethodGraph) (i : Nat) : Nat :=
  ((Finset.range graph.nodes.size).filter (TransGen graph.Unmerged i)).card

/-- The number of merge points without a mark. -/
def unmarked (graph : MethodGraph) (marks : List Nat) : Nat :=
  ((Finset.range graph.nodes.size).filter fun i =>
    graph.isMergePoint i = true ∧ i ∉ marks).card

open Classical in
theorem ahead_le (graph : MethodGraph) (i : Nat) : graph.ahead i ≤ graph.nodes.size :=
  (Finset.card_filter_le _ _).trans_eq (Finset.card_range _)

theorem unmarked_le (graph : MethodGraph) (marks : List Nat) :
    graph.unmarked marks ≤ graph.nodes.size :=
  (Finset.card_filter_le _ _).trans_eq (Finset.card_range _)

/-- Control only gets to nodes of the graph. -/
theorem Sound.lt_size (h : graph.Sound) (hi : graph.Reachable i) : i < graph.nodes.size := by
  obtain ⟨node, hnode, -⟩ := h.node hi
  exact lt_size_of_node? hnode

open Classical in
/-- Between merge points control only gets closer to the next one. -/
theorem Sound.ahead_lt (h : graph.Sound) (hi : graph.Reachable i) (hij : graph.Unmerged i j) :
    graph.ahead j < graph.ahead i := by
  have hj : graph.Reachable j := hi.tail hij.1
  apply Finset.card_lt_card
  rw [Finset.ssubset_iff_of_subset]
  · refine ⟨j, ?_, ?_⟩
    · exact Finset.mem_filter.mpr ⟨Finset.mem_range.mpr (h.lt_size hj), .single hij⟩
    · intro hmem
      exact h.cut hj (Finset.mem_filter.mp hmem).2
  · intro k hk
    obtain ⟨hrange, hjk⟩ := Finset.mem_filter.mp hk
    exact Finset.mem_filter.mpr ⟨hrange, .head hij hjk⟩

/-- A mark at a merge point leaves fewer of them without one. -/
theorem Sound.unmarked_cons_lt (h : graph.Sound) (hi : graph.Reachable i)
    (hpoint : graph.isMergePoint i = true) (hmark : i ∉ marks) :
    graph.unmarked (i :: marks) < graph.unmarked marks := by
  apply Finset.card_lt_card
  rw [Finset.ssubset_iff_of_subset]
  · refine ⟨i, ?_, ?_⟩
    · exact Finset.mem_filter.mpr ⟨Finset.mem_range.mpr (h.lt_size hi), hpoint, hmark⟩
    · intro hmem
      exact (Finset.mem_filter.mp hmem).2.2 List.mem_cons_self
  · intro k hk
    obtain ⟨hrange, hk, hnot⟩ := Finset.mem_filter.mp hk
    exact Finset.mem_filter.mpr ⟨hrange, hk, fun hmem => hnot (List.mem_cons_of_mem _ hmem)⟩

end MethodGraph

namespace Activation

/-- A bound for the steps that an activation can make after it has entered an index. -/
noncomputable def stepsLeft (activation : Activation) (index : Nat) : Nat :=
  activation.graph.unmarked activation.marks * (2 * (activation.graph.nodes.size + 1)) +
    2 * activation.graph.ahead index

/-- The graph of an activation is sound and smaller than a bound, and control can get to the
index. -/
structure Grounded (points : Nat) (activation : Activation) (index : Nat) : Prop where
  sound : activation.graph.Sound
  size_lt : activation.graph.nodes.size < points
  reachable : activation.graph.Reachable index

variable {activation : Activation} {points i j : Nat}

/-- An activation has no more steps left than the square of the number of points allows. -/
theorem stepsLeft_le (activation : Activation) (hsize : activation.graph.nodes.size < points)
    (i : Nat) :
    activation.stepsLeft i + 2 ≤ 2 * points * points := by
  have hunmarked := activation.graph.unmarked_le activation.marks
  have hahead := activation.graph.ahead_le i
  rw [stepsLeft]
  calc
    _ ≤ activation.graph.nodes.size * (2 * (activation.graph.nodes.size + 1)) +
        2 * activation.graph.nodes.size + 2 := by gcongr
    _ = 2 * (activation.graph.nodes.size + 1) * (activation.graph.nodes.size + 1) := by ring
    _ ≤ 2 * points * points := by gcongr <;> omega

/-- Going to a node that is not a merge point takes steps. -/
theorem Grounded.stepsLeft_unmerged (h : activation.Grounded points i)
    (hij : activation.graph.Unmerged i j) :
    activation.stepsLeft j + 2 ≤ activation.stepsLeft i := by
  have hlt := h.sound.ahead_lt h.reachable hij
  rw [stepsLeft, stepsLeft]
  omega

/-- Marking a merge point takes steps. -/
theorem Grounded.stepsLeft_mark (h : activation.Grounded points j)
    (hpoint : activation.graph.isMergePoint j = true) (hmark : j ∉ activation.marks) (i : Nat) :
    ({ activation with marks := j :: activation.marks } : Activation).stepsLeft j + 2 ≤
      activation.stepsLeft i := by
  have hlt := h.sound.unmarked_cons_lt h.reachable hpoint hmark
  have hahead := activation.graph.ahead_le j
  have hmul := Nat.mul_le_mul_right (2 * (activation.graph.nodes.size + 1)) hlt
  rw [stepsLeft, stepsLeft]
  rw [Nat.succ_mul] at hmul
  dsimp only at *
  omega

end Activation

/-! ## Steps of a path -/

namespace Walk

/-- A bound for the steps of the waiting callers after their calls return. -/
noncomputable def waitingSteps (callers : List Suspended) : Nat :=
  (callers.map fun caller => caller.activation.stepsLeft caller.site).sum

/-- A bound for the steps of a path that has entered a program point, if a call is worth as many
steps as given. -/
noncomputable def stepsLeft (perCall : Nat) (walk : Walk) : Nat :=
  walk.budget * perCall + walk.activation.stepsLeft walk.index + waitingSteps walk.callers

/-- All live activations are where control can get in a sound graph, the waiting ones can go on, and
the budget is within a bound. -/
structure Grounded (points budget : Nat) (walk : Walk) : Prop where
  running : walk.activation.Grounded points walk.index
  waiting {caller : Suspended} : caller ∈ walk.callers →
    caller.activation.Grounded points caller.site ∧
      ∃ site dest, caller.activation.graph.node? caller.site = some site ∧
        site.next = some dest ∧ caller.activation.graph.Edge caller.site dest
  budget_le : walk.budget ≤ budget

/-- A grounded walk visits a node. -/
def GroundedAt (points budget : Nat) (walk : Walk) (node : Node) : Prop :=
  walk.Grounded points budget ∧ walk.activation.graph.node? walk.index = some node

end Walk

namespace Search

variable {search : Search} {walk entered : Walk} {node : Node} {points : Nat}

/-- The graphs that a path can enter by a call are sound and smaller than a bound. -/
def Enterable (search : Search) (points : Nat) : Prop :=
  0 < search.options.budget → ∀ method graph, search.graphs.get? method = some graph →
    graph.Sound ∧ graph.nodes.size < points

/-- Entering a program point keeps a path grounded. -/
theorem grounded_enter (h : walk.Grounded points search.options.budget)
    (henter : search.enter? walk = some entered) :
    entered.Grounded points search.options.budget := by
  have hsame := entered_of_enter? henter
  have hbudget : entered.budget ≤ walk.budget := by
    rcases enter?_eq_some_iff.mp henter with ⟨-, rfl⟩ | ⟨-, -, -, rfl⟩
    · exact Nat.le_refl _
    · exact Nat.sub_le _ _
  obtain ⟨hsound, hlt, hreach⟩ := h.running
  refine ⟨⟨?_, ?_, ?_⟩, fun hmem => ?_, hbudget.trans h.budget_le⟩
  · rw [hsame.graph]
    exact hsound
  · rw [hsame.graph]
    exact hlt
  · rw [hsame.graph, hsame.index]
    exact hreach
  · rw [hsame.callers] at hmem
    exact h.waiting hmem

/-- Going on keeps a path grounded. -/
theorem grounded_lead (hgraphs : search.Enterable points)
    (h : walk.Grounded points search.options.budget)
    (hnode : walk.activation.graph.node? walk.index = some node) {walk' : Walk}
    (hleads : search.Leads walk node walk') : walk'.Grounded points search.options.budget := by
  have hgo : ∀ {dest site} (gram : Gram), walk.activation.graph.Step walk.index site dest →
      Walk.Grounded points search.options.budget { walk with index := dest, gram := gram } := by
    intro dest site gram hstep
    exact ⟨⟨h.running.sound, h.running.size_lt, h.running.reachable.tail ⟨site, hstep⟩⟩,
      h.waiting, h.budget_le⟩
  cases hleads with
  | @back caller callers site dest _ hcallers hsite hdest =>
    have hwaiting : ∀ {other}, other ∈ caller :: callers → _ := fun hmem =>
      h.waiting (hcallers ▸ hmem)
    obtain ⟨hcaller, site', dest', hsite', hdest', hedge⟩ := hwaiting List.mem_cons_self
    obtain rfl := Option.some.inj (hsite.symm.trans hsite')
    obtain rfl := Option.some.inj (hdest.symm.trans hdest')
    exact ⟨⟨hcaller.sound, hcaller.size_lt, hcaller.reachable.tail hedge⟩,
      fun hmem => hwaiting (List.mem_cons_of_mem _ hmem), h.budget_le⟩
  | jump hc => exact hgo _ (MethodGraph.step_jump hnode hc)
  | decline hc hnext => exact hgo _ (MethodGraph.step_decline hnode hc hnext)
  | choose hc hdest => exact hgo _ (MethodGraph.step_choose hnode hc hdest)
  | past hc hnext => exact hgo _ (MethodGraph.step_call hnode hc hnext)
  | @into target method graph hc hbudget _ _ _ _ hget =>
    obtain ⟨hsound, hlt⟩ := hgraphs (hbudget.trans_le h.budget_le) method graph hget
    refine ⟨⟨hsound, hlt, .refl⟩, fun hmem => ?_, (Nat.sub_le _ _).trans h.budget_le⟩
    rcases List.mem_cons.mp hmem with rfl | hmem
    · refine ⟨h.running, ?_⟩
      obtain ⟨node', hnode', hfalls⟩ := h.running.sound.node h.running.reachable
      obtain rfl := Option.some.inj (hnode.symm.trans hnode')
      obtain ⟨dest, hdest⟩ := Option.isSome_iff_exists.mp (hfalls (hc ▸ trivial))
      exact ⟨node, dest, hnode, hdest, _, MethodGraph.step_call hnode hc hdest⟩
    · exact h.waiting hmem

/-- Being grounded is kept along paths. -/
theorem grounded_invariant (hgraphs : search.Enterable points) :
    search.PathInvariant (Walk.Grounded points search.options.budget)
      (Walk.GroundedAt points search.options.budget) where
  enter {walk entered node} h hnode henter := by
    have hsame := entered_of_enter? henter
    refine ⟨grounded_enter h henter, ?_⟩
    rw [hsame.graph, hsame.index]
    exact hnode
  lead h hleads := grounded_lead hgraphs h.1 h.2 hleads

/-- Entering the destination of an edge takes steps. -/
theorem stepsLeft_enter (perCall : Nat) {i : Nat} (henter : search.enter? walk = some entered)
    (h : walk.activation.Grounded points i) (hedge : walk.activation.graph.Edge i walk.index) :
    entered.stepsLeft perCall + 2 ≤
      walk.budget * perCall + walk.activation.stepsLeft i + Walk.waitingSteps walk.callers := by
  rcases enter?_eq_some_iff.mp henter with ⟨hpoint, rfl⟩ | ⟨hpoint, hmark, -, rfl⟩
  · have hlt := h.stepsLeft_unmerged ⟨hedge, hpoint⟩
    rw [Walk.stepsLeft]
    omega
  · have hground : walk.activation.Grounded points walk.index :=
      ⟨h.sound, h.size_lt, h.reachable.tail hedge⟩
    have hlt := hground.stepsLeft_mark hpoint hmark i
    have hpay := Nat.mul_le_mul_right perCall (Nat.sub_le walk.budget (search.toll walk))
    rw [Walk.stepsLeft, marked]
    dsimp only
    omega

/-- The steps of an activation that has just been entered are worth a call. -/
theorem stepsLeft_enter_le (hsize : walk.activation.graph.nodes.size < points)
    (henter : search.enter? walk = some entered) :
    entered.stepsLeft (2 * points * points) + 2 ≤
      walk.budget * (2 * points * points) + 2 * points * points +
        Walk.waitingSteps walk.callers := by
  have hsame := entered_of_enter? henter
  have hle := entered.activation.stepsLeft_le (hsame.graph.symm ▸ hsize) entered.index
  have hbudget : entered.budget ≤ walk.budget := by
    rcases enter?_eq_some_iff.mp henter with ⟨-, rfl⟩ | ⟨-, -, -, rfl⟩
    · exact Nat.le_refl _
    · exact Nat.sub_le _ _
  have hpay := Nat.mul_le_mul_right (2 * points * points) hbudget
  rw [Walk.stepsLeft, hsame.callers]
  omega

/-- Whatever a path does next takes steps. -/
theorem stepsLeft_lead (hgraphs : search.Enterable points)
    (h : walk.Grounded points search.options.budget)
    (hnode : walk.activation.graph.node? walk.index = some node) {walk' : Walk}
    (hleads : search.Leads walk node walk') (henter : search.enter? walk' = some entered) :
    entered.stepsLeft (2 * points * points) + 2 ≤ walk.stepsLeft (2 * points * points) := by
  have hgo : ∀ {dest site} {gram : Gram}, walk.activation.graph.Step walk.index site dest →
      search.enter? { walk with index := dest, gram := gram } = some entered →
      entered.stepsLeft (2 * points * points) + 2 ≤ walk.stepsLeft (2 * points * points) := by
    intro dest site gram hstep henter
    have hle := stepsLeft_enter (2 * points * points) henter h.running ⟨site, hstep⟩
    exact hle
  cases hleads with
  | @back caller callers site dest _ hcallers hsite hdest =>
    obtain ⟨hcaller, site', dest', hsite', hdest', hedge⟩ :=
      h.waiting (hcallers ▸ List.mem_cons_self)
    obtain rfl := Option.some.inj (hsite.symm.trans hsite')
    obtain rfl := Option.some.inj (hdest.symm.trans hdest')
    have hle := stepsLeft_enter (2 * points * points) henter hcaller hedge
    have hsteps : walk.stepsLeft (2 * points * points) = walk.budget * (2 * points * points) +
        walk.activation.stepsLeft walk.index + Walk.waitingSteps (caller :: callers) := by
      rw [Walk.stepsLeft, hcallers]
    simp only [Walk.waitingSteps, List.map_cons, List.sum_cons] at hle hsteps
    omega
  | jump hc => exact hgo (MethodGraph.step_jump hnode hc) henter
  | decline hc hnext => exact hgo (MethodGraph.step_decline hnode hc hnext) henter
  | choose hc hdest => exact hgo (MethodGraph.step_choose hnode hc hdest) henter
  | past hc hnext => exact hgo (MethodGraph.step_call hnode hc hnext) henter
  | @into target method graph hc hbudget _ _ _ _ hget =>
    obtain ⟨-, hlt⟩ := hgraphs (hbudget.trans_le h.budget_le) method graph hget
    have hle := stepsLeft_enter_le hlt henter
    have hpay : (walk.budget - 1) * (2 * points * points) + 2 * points * points =
        walk.budget * (2 * points * points) := by
      rw [← Nat.succ_mul, Nat.succ_eq_add_one, Nat.sub_add_cancel hbudget]
    have hsteps : walk.stepsLeft (2 * points * points) = walk.budget * (2 * points * points) +
        walk.activation.stepsLeft walk.index + Walk.waitingSteps walk.callers := rfl
    simp only [callee, Walk.waitingSteps, List.map_cons, List.sum_cons] at hle hsteps
    omega

/-! ## Every task succeeds and leads to shorter ones -/

/-- The number of tasks that can follow one another from a task on. -/
noncomputable def rank (search : Search) (points : Nat) : Task → Nat
  | .arrive walk =>
    (search.enter? walk).elim 0 fun entered => entered.stepsLeft (2 * points * points) + 2
  | .emit walk _ _ => walk.stepsLeft (2 * points * points) + 1

/-- An arrival succeeds where there is a node that control can go on from. -/
theorem exists_expand (search : Search)
    (hnode : walk.activation.graph.node? walk.index = some node)
    (hfalls : node.command.Falls → node.next.isSome)
    (hwaiting : ∀ caller ∈ walk.callers, ∃ site dest,
      caller.activation.graph.node? caller.site = some site ∧ site.next = some dest) :
    ∃ tasks, search.expand walk = .ok tasks := by
  rw [expand, hnode]
  dsimp only
  cases henter : search.enter? walk with
  | none => exact ⟨_, rfl⟩
  | some entered =>
    dsimp only
    cases hc : node.command with
    | ret =>
      rw [← (entered_of_enter? henter).callers] at hwaiting
      dsimp only [returns]
      split
      · exact ⟨_, rfl⟩
      · cases hcallers : entered.callers with
        | nil => exact ⟨_, rfl⟩
        | cons caller callers =>
          obtain ⟨site, dest, hsite, hdest⟩ := hwaiting caller (hcallers ▸ List.mem_cons_self)
          simp only [continueIn, hsite, hdest]
          exact ⟨_, rfl⟩
    | raise | jump _ | call _ => exact ⟨_, rfl⟩
    | branch targets =>
      obtain ⟨dest, hdest⟩ := Option.isSome_iff_exists.mp (hfalls (hc ▸ trivial))
      simp only [choices, hdest]
      exact ⟨_, rfl⟩

/-- A path that goes on has fewer steps left. -/
theorem rank_lead (hgraphs : search.Enterable points)
    (h : walk.GroundedAt points search.options.budget node) {walk' : Walk}
    (hleads : search.Leads walk node walk') :
    search.rank points (.arrive walk') ≤ walk.stepsLeft (2 * points * points) := by
  rw [rank]
  cases henter : search.enter? walk' with
  | none => exact Nat.zero_le _
  | some entered => exact stepsLeft_lead hgraphs h.1 h.2 hleads henter

/-- A task of a grounded path succeeds and leads to tasks of a lower rank. -/
theorem perform_rank (hgraphs : search.Enterable points) {task : Task} (found : NgramSet)
    (htask : OnPath (Walk.Grounded points search.options.budget)
      (Walk.GroundedAt points search.options.budget) task) :
    ∃ found' tasks, search.perform task found = .ok (found', tasks) ∧ ∀ task' ∈ tasks,
      OnPath (Walk.Grounded points search.options.budget)
        (Walk.GroundedAt points search.options.budget) task' ∧
      search.rank points task' < search.rank points task := by
  have hinv := grounded_invariant hgraphs
  cases htask with
  | @arrive walk hwalk =>
    obtain ⟨node, hnode, hfalls⟩ := hwalk.running.sound.node hwalk.running.reachable
    obtain ⟨tasks, htasks⟩ := search.exists_expand hnode hfalls fun caller hmem => by
      obtain ⟨-, site, dest, hsite, hdest, -⟩ := hwalk.waiting hmem
      exact ⟨site, dest, hsite, hdest⟩
    have hperform : search.perform (.arrive walk) found = .ok (found, tasks) := by
      rw [perform, htasks]
      rfl
    refine ⟨found, tasks, hperform, fun task' hmem => ⟨?_, ?_⟩⟩
    · exact (hinv.perform (.arrive hwalk) hperform).1 task' hmem
    · obtain ⟨node', entered, hnode', henter, hgo⟩ := mem_expand htasks hmem
      have hrank : search.rank points (.arrive walk) =
          entered.stepsLeft (2 * points * points) + 2 := by
        rw [rank, henter, Option.elim_some]
      rw [hrank]
      rcases hgo with ⟨walk', rfl, hleads⟩ | ⟨target, -, rfl⟩
      · have hle := rank_lead hgraphs (hinv.enter hwalk hnode' henter) hleads
        omega
      · rw [rank]
        omega
  | @emit walk node target hwalk hc =>
    obtain ⟨node', hnode, hfalls⟩ := hwalk.1.running.sound.node hwalk.1.running.reachable
    obtain rfl := Option.some.inj (hwalk.2.symm.trans hnode)
    obtain ⟨dest, hdest⟩ := Option.isSome_iff_exists.mp (hfalls (hc ▸ trivial))
    obtain ⟨found', tasks, hemit⟩ := search.exists_emit walk target dest found
    rw [← hdest] at hemit
    refine ⟨found', tasks, hemit, fun task' hmem => ⟨?_, ?_⟩⟩
    · exact (hinv.perform (.emit hwalk hc) hemit).1 task' hmem
    · have hle : ∀ {dest}, node.next = some dest → search.rank points (.arrive { walk with
          index := dest, gram := search.grown walk target }) <
          search.rank points (.emit walk target node.next) := by
        intro dest hnext
        have hle := rank_lead hgraphs hwalk (.past hc hnext)
        rw [rank.eq_2]
        omega
      cases emission_of_emit hemit with
      | cut => cases hmem
      | passed hnext _ =>
        obtain rfl := List.mem_singleton.mp hmem
        exact hle hnext
      | stored _ _ _ hnext =>
        obtain rfl := List.mem_singleton.mp hmem
        exact hle hnext

/-- The tasks that can follow one another from the beginning of a search. -/
theorem rank_start_le (search : Search) {graph : MethodGraph} (hlt : graph.nodes.size < points)
    (index : Nat) : search.rank points
      (.arrive ⟨index, ⟨search.root, graph, []⟩, [], search.options.budget, .empty⟩) ≤
        (search.options.budget + 1) * (2 * points * points) := by
  rw [rank]
  cases henter : search.enter? _ with
  | none => exact Nat.zero_le _
  | some entered =>
    have hle := stepsLeft_enter_le hlt henter
    simp only [Walk.waitingSteps, List.map_nil, List.sum_nil, ← Nat.succ_mul] at hle
    exact hle

/-- A search from a node that control can get to in the starting method ends. -/
theorem exists_exploreFrom (hgraphs : search.Enterable points) {graph : MethodGraph}
    (hsound : graph.Sound) (hlt : graph.nodes.size < points) {index : Nat}
    (hindex : graph.Reachable index) {depth : Nat}
    (hdepth : (search.options.budget + 1) * (2 * points * points) < depth) (found : NgramSet) :
    ∃ found', search.exploreFrom depth graph index found = .ok found' := by
  refine exists_explore_ok (fun task found => perform_rank hgraphs found) (.arrive ?_)
    (Nat.lt_of_le_of_lt (search.rank_start_le hlt index) hdepth)
  exact ⟨⟨hsound, hlt, hindex⟩, fun hmem => absurd hmem List.not_mem_nil, Nat.le_refl _⟩

end Search

/-! ## All searches of a compiled program -/

/-- No graph has more nodes than the program has points. -/
theorem size_le_pointCount {graphs : GraphTable} {method : MethodKey} {graph : MethodGraph}
    (h : graphs.get? method = some graph) : graph.nodes.size ≤ pointCount graphs := by
  have hmem : graph.nodes.size ∈ graphs.toList.map fun entry => entry.2.nodes.size :=
    List.mem_map.mpr ⟨(method, graph), SignatureTable.mem_toList h, rfl⟩
  rw [pointCount, ← List.sum_eq_foldl]
  exact List.single_le_sum (fun _ _ => Nat.zero_le _) _ hmem

/-- The depth below which the tasks of every search of a program end. -/
def searchDepth (graphs : GraphTable) (options : SearchOptions) : Nat :=
  (options.budget + 1) * (2 * (pointCount graphs + 1) * (pointCount graphs + 1))

theorem searchDepth_lt_depthLimit (graphs : GraphTable) (options : SearchOptions) :
    searchDepth graphs options < depthLimit graphs options :=
  Nat.lt_add_of_pos_right (Nat.two_pow_pos 32)

section Compiled

variable {graphs : GraphTable} {policy : DigPolicy} {options : SearchOptions} {root : MethodKey}
  {graph : MethodGraph} {depth deeper : Nat} {found found' : NgramSet}

/-- A search has a starting graph if its method has one. -/
theorem startingGraph_eq_ok (hsize : 0 < options.size) (hroot : graphs.get? root = some graph) :
    startingGraph graphs options root = .ok graph := by
  rw [startingGraph, if_neg (Nat.ne_of_gt hsize), hroot]

/-- A search that succeeds has n-grams of a positive size and a graph to start in. -/
theorem get?_of_startingGraph (h : startingGraph graphs options root = .ok graph) :
    0 < options.size ∧ graphs.get? root = some graph := by
  rw [startingGraph] at h
  split at h
  · cases h
  case isFalse hsize =>
    split at h
    · cases h
    case h_2 hget => exact ⟨Nat.pos_of_ne_zero hsize, hget.trans (congrArg some (Except.ok.inj h))⟩

/-- A search from the start of a method explores its starting graph. -/
theorem ngramsWithin_eq (hsize : 0 < options.size) (hroot : graphs.get? root = some graph) :
    ngramsWithin depth graphs policy options root =
      Search.exploreFrom ⟨graphs, policy, options, root, none⟩ depth graph graph.start .empty := by
  rw [ngramsWithin, startingGraph_eq_ok hsize hroot]
  rfl

/-- A search from some indices adds the n-grams of one after the other. -/
theorem ngramsFromWithin_eq (hsize : 0 < options.size) (hroot : graphs.get? root = some graph)
    (indices : List Nat) :
    ngramsFromWithin depth graphs policy options root indices =
      indices.foldlM (addNgramsFrom depth graphs policy options root graph) .empty := by
  rw [ngramsFromWithin, startingGraph_eq_ok hsize hroot]
  rfl

/-- The graphs of a compiled program can be entered from every search. -/
theorem GraphTable.Compiled.enterable (h : graphs.Compiled) (start : Option Nat) :
    Search.Enterable ⟨graphs, policy, options, root, start⟩ (pointCount graphs + 1) :=
  fun _ method graph hget =>
    ⟨(h method graph hget).sound, Nat.lt_succ_of_le (size_le_pointCount hget)⟩

/-- A higher depth does not change what is added. -/
theorem addNgramsFrom_mono (hle : depth ≤ deeper) {index : Nat}
    (h : addNgramsFrom depth graphs policy options root graph found index = .ok found') :
    addNgramsFrom deeper graphs policy options root graph found index = .ok found' := by
  rw [addNgramsFrom] at h ⊢
  split at h
  case h_1 => cases h
  case h_2 => exact Search.explore_mono hle h

/-- Adding the n-grams from an index succeeds if control can get there. -/
theorem exists_addNgramsFrom (hgraphs : graphs.Compiled) (hroot : graphs.get? root = some graph)
    {index : Nat} (hindex : graph.Reachable index) (hdepth : searchDepth graphs options < depth)
    (found : NgramSet) :
    ∃ found', addNgramsFrom depth graphs policy options root graph found index = .ok found' := by
  have hsound := (hgraphs root graph hroot).sound
  obtain ⟨node, hnode, -⟩ := hsound.node hindex
  rw [addNgramsFrom, hnode]
  exact Search.exists_exploreFrom (hgraphs.enterable (some index)) hsound
    (Nat.lt_succ_of_le (size_le_pointCount hroot)) hindex hdepth found

/-- The search from the start of a method has the same result below every high enough depth. -/
theorem GraphTable.Compiled.exists_ngramsWithin (hgraphs : graphs.Compiled) (policy : DigPolicy)
    (hsize : 0 < options.size) (hroot : graphs.get? root = some graph) :
    ∃ found, ∀ depth, searchDepth graphs options < depth →
      ngramsWithin depth graphs policy options root = .ok found := by
  obtain ⟨found, hfound⟩ := Search.exists_exploreFrom (hgraphs.enterable none)
    (hgraphs root graph hroot).sound (Nat.lt_succ_of_le (size_le_pointCount hroot)) .refl
    (Nat.lt_succ_self (searchDepth graphs options)) .empty
  refine ⟨found, fun depth hdepth => ?_⟩
  rw [ngramsWithin_eq hsize hroot]
  exact Search.explore_mono hdepth hfound

/-- The searches from nodes of a method have the same result below every high enough depth. -/
theorem GraphTable.Compiled.exists_ngramsFromWithin (hgraphs : graphs.Compiled)
    (policy : DigPolicy) (hsize : 0 < options.size) (hroot : graphs.get? root = some graph)
    {indices : List Nat} (hindices : ∀ index ∈ indices, graph.Reachable index) :
    ∃ found, ∀ depth, searchDepth graphs options < depth →
      ngramsFromWithin depth graphs policy options root indices = .ok found := by
  obtain ⟨found, hfound⟩ := exists_foldlM_ok indices .empty fun index hmem found =>
    exists_addNgramsFrom hgraphs hroot (hindices index hmem)
      (Nat.lt_succ_self (searchDepth graphs options)) found
  refine ⟨found, fun depth hdepth => ?_⟩
  rw [ngramsFromWithin_eq hsize hroot]
  exact foldlM_ok_congr (fun index _ found found' => addNgramsFrom_mono hdepth) hfound

/-- Every search of a compiled program ends with a result, from the start of a method and from any
nodes that control can get to there. A higher limit would not change it. -/
theorem search_terminates (hgraphs : graphs.Compiled) (policy : DigPolicy)
    (hsize : 0 < options.size) (hroot : graphs.get? root = some graph) :
    (∃ found, ngrams graphs policy options root = .ok found ∧
        ∀ depth, searchDepth graphs options < depth →
          ngramsWithin depth graphs policy options root = .ok found) ∧
      ∀ indices, (∀ index ∈ indices, graph.Reachable index) →
        ∃ found, ngramsFrom graphs policy options root indices = .ok found ∧
          ∀ depth, searchDepth graphs options < depth →
            ngramsFromWithin depth graphs policy options root indices = .ok found := by
  have hlimit := searchDepth_lt_depthLimit graphs options
  constructor
  · obtain ⟨found, hall⟩ := hgraphs.exists_ngramsWithin policy hsize hroot
    exact ⟨found, hall _ hlimit, hall⟩
  · intro indices hindices
    obtain ⟨found, hall⟩ := hgraphs.exists_ngramsFromWithin policy hsize hroot hindices
    exact ⟨found, hall _ hlimit, hall⟩

end Compiled

/-- Two calls in a loop. -/
def loopBody : Body :=
  ⟨#[some ⟨"invokestatic", [], some "// Method t/A.a:()V"⟩,
    some ⟨"invokestatic", [], some "// Method t/A.b:()V"⟩, some ⟨"ifeq", ["0"], none⟩]⟩

/-- The graph of `loopBody`. -/
def loopGraph : MethodGraph where
  nodes := #[some ⟨some 1, .call ⟨some "t/A", "a:()V"⟩⟩,
    some ⟨some 2, .call ⟨some "t/A", "b:()V"⟩⟩, some ⟨some 3, .branch [0]⟩, some ⟨none, .ret⟩]
  start := 0
  mergePoints := [0]

/-- One call in a loop. -/
def innerBody : Body :=
  ⟨#[some ⟨"invokestatic", [], some "// Method t/A.c:()V"⟩, some ⟨"ifeq", ["0"], none⟩]⟩

/-- The graph of `innerBody`. -/
def innerGraph : MethodGraph where
  nodes := #[some ⟨some 1, .call ⟨some "t/A", "c:()V"⟩⟩, some ⟨some 2, .branch [0]⟩,
    some ⟨none, .ret⟩]
  start := 0
  mergePoints := [0]

/-- The method with `loopBody`. -/
def loopMethod : MethodKey :=
  ⟨"t/A", "m:()V"⟩

/-- The method with `innerBody`, which the loop of `loopBody` calls. -/
def innerMethod : MethodKey :=
  ⟨"t/A", "b:()V"⟩

/-- A loop that calls a method with a loop. -/
def loopProgram : GraphTable :=
  (SignatureTable.empty.insert loopMethod loopGraph).insert innerMethod innerGraph

/-- Pairs of calls, with a budget for one call and one merge point below the start. -/
def loopOptions : SearchOptions where
  size := 2
  maxCallDepth := 2
  allowRepetitive := true

/-- A call of `loopMethod` and, below its second call, the call of `innerMethod`. -/
def loopPair : Ngram where
  head := ⟨⟨some "t/A", "a:()V"⟩, ⟨⟨loopMethod, 0⟩, []⟩⟩
  tail := [⟨⟨some "t/A", "c:()V"⟩, ⟨⟨innerMethod, 0⟩, [⟨loopMethod, 1⟩]⟩⟩]

theorem loopProgram_compiled : loopProgram.Compiled := by
  have hloop : loopBody.compile none false loopMethod = .ok loopGraph := by decide +kernel
  have hinner : innerBody.compile none false innerMethod = .ok innerGraph := by decide +kernel
  exact (GraphTable.compiled_empty.insert (MethodGraph.compiled_of_compile hloop) loopMethod).insert
    (MethodGraph.compiled_of_compile hinner) innerMethod

theorem loopProgram_get?_loopMethod : loopProgram.get? loopMethod = some loopGraph := by
  decide +kernel

/-- The searches from the start of the loop and from its branch end, although the loop is entered
again and again and calls a method that loops itself. -/
theorem search_terminates_loop :
    loopProgram.Compiled ∧ 0 < loopOptions.size ∧
      loopProgram.get? loopMethod = some loopGraph ∧ loopGraph.Reachable 2 ∧
      (∃ found, ngrams loopProgram commonObjectMethods loopOptions loopMethod = .ok found) ∧
      ∃ found, ngramsFrom loopProgram commonObjectMethods loopOptions loopMethod [2, 0] =
        .ok found := by
  have hone : loopGraph.Reachable 1 := .single ⟨_, _, rfl, .call rfl⟩
  have htwo : loopGraph.Reachable 2 := hone.tail ⟨_, _, rfl, .call rfl⟩
  have hends := search_terminates loopProgram_compiled commonObjectMethods
    (by decide : 0 < loopOptions.size) loopProgram_get?_loopMethod
  obtain ⟨found, hfound, -⟩ := hends.1
  obtain ⟨found', hfound', -⟩ := hends.2 [2, 0] (by
    intro index hindex
    rcases List.mem_pair.mp hindex with rfl | rfl
    · exact htwo
    · exact .refl)
  exact ⟨loopProgram_compiled, by decide, loopProgram_get?_loopMethod, htwo, ⟨found, hfound⟩,
    found', hfound'⟩

end CallNgrams
