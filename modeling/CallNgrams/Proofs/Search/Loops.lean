import Mathlib.Data.List.Chain
import CallNgrams.Proofs.Search.Exhaustive
import CallNgrams.Proofs.Search.Gram

/-!
# Loops that a search can follow

Within one activation a search goes from node to node along the edges of the graph: to the target of
a jump, to a target or the fallthrough of a branch, and past a call. Every cycle of these edges that
control can get into has a merge point among its nodes, and an activation enters that node only
once.
-/

namespace CallNgrams

open Relation

namespace Search

variable {search : Search} {walk walk' : Walk}

/-- A path arrives at one program point and then at another, where it gets at once or by making a
call. -/
inductive Advances (search : Search) (walk walk' : Walk) : Prop where
  | directly : search.Continues (.arrive walk) (.arrive walk') → Advances search walk walk'
  | byCall {entered : Walk} {target : CallTarget} {next : Option Nat} :
      search.Continues (.arrive walk) (.emit entered target next) →
      search.Continues (.emit entered target next) (.arrive walk') → Advances search walk walk'

/-- A path that arrives with the same callers has followed an edge of the running method. -/
theorem Advances.edge (h : search.Advances walk walk') (hcallers : walk'.callers = walk.callers) :
    walk.activation.graph.Edge walk.index walk'.index := by
  cases h with
  | directly hgo =>
    obtain ⟨tasks, hexpand, hmem⟩ := continues_arrive_iff.mp hgo
    obtain ⟨node, entered, hnode, henter, hgo⟩ := mem_expand hexpand hmem
    obtain ⟨hindex, -, hgraph, hsame, -⟩ := entered_of_enter? henter
    rw [← hindex, ← hgraph] at hnode ⊢
    rw [← hsame] at hcallers
    rcases hgo with ⟨_, heq, hleads⟩ | ⟨_, _, heq⟩
    · obtain rfl := Task.arrive.inj heq
      cases hleads with
      | back _ hcaller =>
        rw [hcaller] at hcallers
        exact absurd hcallers.symm (List.cons_ne_self _ _)
      | jump hc => exact ⟨_, MethodGraph.step_jump hnode hc⟩
      | decline hc hnext => exact ⟨_, MethodGraph.step_decline hnode hc hnext⟩
      | choose hc hdest => exact ⟨_, MethodGraph.step_choose hnode hc hdest⟩
      | into => exact absurd hcallers (List.cons_ne_self _ _)
      | past hc hnext => exact ⟨_, MethodGraph.step_call hnode hc hnext⟩
    · cases heq
  | byCall hfirst hgo =>
    obtain ⟨tasks, hexpand, hmem⟩ := continues_arrive_iff.mp hfirst
    obtain ⟨node, entered, hnode, henter, hemit⟩ := mem_expand hexpand hmem
    obtain ⟨hindex, -, hgraph, -, -⟩ := entered_of_enter? henter
    rw [← hindex, ← hgraph] at hnode ⊢
    rcases hemit with ⟨_, heq, _⟩ | ⟨target, hc, heq⟩
    · cases heq
    · obtain ⟨rfl, rfl, rfl⟩ := Task.emit.inj heq
      obtain ⟨dest, hnext, heq, -⟩ := continues_emit_iff.mp hgo
      obtain rfl := Task.arrive.inj heq
      exact ⟨_, MethodGraph.step_call hnode hc hnext⟩

/-- A path that has entered a node, and has not made enough calls for an n-gram, can follow all the
edges of the node. -/
theorem exists_advances {entered : Walk} {node : Node} {tasks : List Task} {j : Nat}
    (hnode : walk.activation.graph.node? walk.index = some node)
    (henter : search.enter? walk = some entered) (hexpand : search.expand walk = .ok tasks)
    (hbranch : search.options.noBranch = false)
    (hcalls : walk.gram.items.length + 1 < search.options.size)
    (hedge : walk.activation.graph.Edge walk.index j) :
    ∃ walk', search.Advances walk walk' ∧ walk'.callers = walk.callers ∧ walk'.index = j := by
  have hgo : ∀ {task}, task ∈ tasks → search.Continues (.arrive walk) task := fun hmem =>
    continues_arrive_iff.mpr ⟨tasks, hexpand, hmem⟩
  have hsame := entered_of_enter? henter
  obtain ⟨site, hmoves⟩ := (MethodGraph.edge_iff hnode).mp hedge
  cases hc : node.command with
  | ret | raise =>
    rw [hc] at hmoves
    cases hmoves
  | jump dest =>
    rw [hc] at hmoves
    cases hmoves
    exact ⟨_, .directly (hgo (mem_expand_jump hnode henter hexpand hc)), hsame.callers, rfl⟩
  | branch targets =>
    rw [hc] at hmoves
    cases hmoves with
    | choose hdest =>
      exact ⟨_, .directly (hgo (mem_expand_choose hnode henter hexpand hc hbranch hdest)),
        hsame.callers, rfl⟩
    | decline hnext =>
      exact ⟨_, .directly (hgo (mem_expand_decline hnode henter hexpand hc hnext)),
        hsame.callers, rfl⟩
  | call target =>
    rw [hc] at hmoves
    cases hmoves with
    | call hnext =>
      refine ⟨_, .byCall (hgo (mem_expand_call hnode henter hexpand hc))
        (continues_emit_iff.mpr ⟨j, hnext, rfl, fun ngram _ hwindow => ?_⟩), hsame.callers, rfl⟩
      have hle := (Gram.window?_eq_some_iff.mp hwindow).1
      rw [called, Gram.items_push, List.length_cons, hsame.gram] at hle
      omega

/-- A search for pairs, which goes on behind a first call. -/
def forPairs : Search where
  graphs := SignatureTable.empty
  policy := commonObjectMethods
  options := { size := 2, allowRepetitive := true }
  root := ⟨"", ""⟩
  start := none

/-- The path with which a search begins at a node. -/
def firstWalk (search : Search) (graph : MethodGraph) (index : Nat) : Walk :=
  ⟨index, ⟨search.root, graph, []⟩, [], search.options.budget, .empty⟩

end Search

namespace MethodGraph

variable {graph : MethodGraph} {i j : Nat}

/-- Some search goes from one node of a graph to another in the same activation. -/
def Followed (graph : MethodGraph) (i j : Nat) : Prop :=
  ∃ (search : Search) (walk walk' : Walk), search.Advances walk walk' ∧
    walk.activation.graph = graph ∧ walk.index = i ∧ walk'.callers = walk.callers ∧
    walk'.index = j

/-- Searches follow exactly the edges of the nodes that control can get to. -/
theorem Sound.followed_iff (h : graph.Sound) (hi : graph.Reachable i) :
    graph.Followed i j ↔ graph.Edge i j := by
  constructor
  · rintro ⟨search, walk, walk', hadvances, rfl, rfl, hcallers, rfl⟩
    exact hadvances.edge hcallers
  · intro hedge
    obtain ⟨node, hnode, hfalls⟩ := h.node hi
    have henters : ∃ entered, Search.forPairs.enter? (Search.forPairs.firstWalk graph i) =
        some entered := by
      cases hpoint : graph.isMergePoint i with
      | false => exact ⟨_, Search.enter?_eq_some_iff.mpr (.inl ⟨hpoint, rfl⟩)⟩
      | true =>
        exact ⟨_, Search.enter?_eq_some_iff.mpr
          (.inr ⟨hpoint, List.not_mem_nil, Nat.zero_le _, rfl⟩)⟩
    have hexpands : ∃ tasks, Search.forPairs.expand (Search.forPairs.firstWalk graph i) =
        .ok tasks :=
      Search.forPairs.exists_expand hnode hfalls fun _ hmem => absurd hmem List.not_mem_nil
    obtain ⟨entered, henter⟩ := henters
    obtain ⟨tasks, hexpand⟩ := hexpands
    obtain ⟨walk', hadvances, hcallers, hindex⟩ :=
      Search.exists_advances hnode henter hexpand rfl Nat.one_lt_two hedge
    exact ⟨_, _, walk', hadvances, rfl, rfl, hcallers, hindex⟩

/-- A chain of edges to nodes that are not merge points. -/
theorem transGen_unmerged {first last : Nat} {between : List Nat}
    (hchain : (first :: (between ++ [last])).IsChain graph.Edge)
    (hfree : ∀ i ∈ between ++ [last], graph.isMergePoint i = false) :
    TransGen graph.Unmerged first last := by
  induction between generalizing first with
  | nil =>
    obtain ⟨hedge, -⟩ := List.isChain_cons_cons.mp hchain
    exact .single ⟨hedge, hfree last List.mem_cons_self⟩
  | cons second between ih =>
    obtain ⟨hedge, hrest⟩ := List.isChain_cons_cons.mp hchain
    exact .head ⟨hedge, hfree second List.mem_cons_self⟩
      (ih hrest fun i hi => hfree i (List.mem_cons_of_mem _ hi))

end MethodGraph

/-- Searches follow the edges of a compiled method, and every cycle of edges that control can get
into has a merge point among its nodes. -/
theorem cycle_meets_mergePoint {graph : MethodGraph} (h : graph.Compiled) :
    (∀ i j, graph.Reachable i → (graph.Followed i j ↔ graph.Edge i j)) ∧
      ∀ first rest, graph.Reachable first → (first :: (rest ++ [first])).IsChain graph.Edge →
        ∃ i ∈ first :: rest, i ∈ graph.mergePoints := by
  refine ⟨fun i j hi => h.sound.followed_iff hi, fun first rest hreach hcycle => ?_⟩
  by_contra hnone
  refine h.sound.cut hreach (MethodGraph.transGen_unmerged hcycle fun i hi => ?_)
  rw [MethodGraph.isMergePoint, List.contains_eq_mem, decide_eq_false_iff_not]
  intro hpoint
  refine hnone ⟨i, ?_, hpoint⟩
  rw [List.mem_append, List.mem_singleton] at hi
  exact List.mem_cons.mpr hi.symm

/-- The loop of `loopGraph` goes through the start of the method, which is its merge point. -/
theorem cycle_meets_mergePoint_loop :
    loopGraph.Compiled ∧ loopGraph.Reachable 1 ∧
      ([1, 2, 0, 1] : List Nat).IsChain loopGraph.Edge ∧
      ∃ i ∈ [1, 2, 0], i ∈ loopGraph.mergePoints := by
  have hcompiled := loopProgram_compiled loopMethod loopGraph loopProgram_get?_loopMethod
  have hreach : loopGraph.Reachable 1 := .single ⟨_, _, rfl, .call rfl⟩
  have hcycle : ([1, 2, 0, 1] : List Nat).IsChain loopGraph.Edge := by
    refine List.isChain_cons_cons.mpr ⟨⟨_, _, rfl, .call rfl⟩, ?_⟩
    refine List.isChain_cons_cons.mpr ⟨⟨_, _, rfl, .choose List.mem_cons_self⟩, ?_⟩
    exact List.isChain_pair.mpr ⟨_, _, rfl, .call rfl⟩
  exact ⟨hcompiled, hreach, hcycle, (cycle_meets_mergePoint hcompiled).2 1 [2, 0] hreach hcycle⟩

end CallNgrams
