import Mathlib.Tactic.IntervalCases
import CallNgrams.Proofs.Search.Provenance

/-!
# Methods that a search depends on

A search looks up the method that it starts in and, for every call that it comes to, the definitions
that the call can lead to. All of them are in the call closure of the starting method. So searches
of two programs that agree there perform the same tasks one after the other, and find the same
n-grams, whatever else the programs define.
-/

namespace CallNgrams

namespace GraphTable

/-- The methods that calls lead to from a method: the method itself and, with every method, the
definitions that the calls in it can lead to. -/
inductive CallClosure (graphs : GraphTable) (root : MethodKey) : MethodKey → Prop where
  | root : CallClosure graphs root root
  | call {point : ProgramPoint} {method : MethodKey} {graph : MethodGraph} :
      CallClosure graphs root point.method → graphs.CanCall point method →
      graphs.get? method = some graph → CallClosure graphs root method

/-- Two programs agree on a method and on what the calls in its call closure can lead to: the same
classes define these signatures, with the same graphs. -/
structure AgreeFrom (graphs graphs' : GraphTable) (root : MethodKey) : Prop where
  start : graphs.get? root = graphs'.get? root
  callee (point : ProgramPoint) (method : MethodKey) : graphs.CallClosure root point.method →
    graphs.CanCall point method → graphs.get? method = graphs'.get? method

end GraphTable

namespace Search

variable {search search' : Search} {walk : Walk} {node : Node} {target : CallTarget}
  {graphs' : GraphTable} {task : Task} {found : NgramSet} {depth : Nat}

/-- The same search in another program. -/
def inProgram (search : Search) (graphs : GraphTable) : Search :=
  { search with graphs := graphs }

/-! ## Looked-up methods -/

/-- The method of a frame is in the call closure of the starting method. -/
theorem Stacked.callClosure {frame : Frame} (h : search.Stacked frame) {graph : MethodGraph}
    (hget : search.graphs.get? frame.point.method = some graph) :
    search.graphs.CallClosure search.root frame.point.method := by
  induction h generalizing graph with
  | root => exact .root
  | call _ hcan _ _ ih =>
    obtain ⟨-, ⟨graph', -, hcaller, -⟩, -⟩ := id hcan
    exact .call (ih hcaller) hcan hget

/-- The method of a path is one that calls lead to from the starting method. -/
theorem Traced.callClosure (h : search.Traced walk) :
    search.graphs.CallClosure search.root walk.activation.method :=
  h.stacked.callClosure h.running

/-- The candidates of a call are the definers that its class leaves. -/
theorem candidates_eq_filter (search : Search) (target : CallTarget) :
    search.candidates target = (search.graphs.definers target.signature).filter fun owner =>
      target.owner.all (owner == ·) := by
  unfold candidates
  cases target.owner with
  | none => simp
  | some owner => rfl

theorem owner_of_all {owner : String} (h : target.owner.all (owner == ·) = true) :
    target.owner = none ∨ target.owner = some owner := by
  cases htarget : target.owner with
  | none => exact .inl rfl
  | some owner' =>
    rw [htarget, Option.all_some, beq_iff_eq] at h
    exact .inr (congrArg some h.symm)

/-- The candidates for a target are classes that it may name. -/
theorem mem_candidates {owner : String} (h : owner ∈ search.candidates target) :
    target.owner = none ∨ target.owner = some owner := by
  rw [candidates_eq_filter] at h
  exact owner_of_all (List.mem_filter.mp h).2

/-- A call has the same candidates where the methods that it can lead to are the same. -/
theorem candidates_congr (h : ∀ method : MethodKey, target.signature = method.signature →
      (target.owner = none ∨ target.owner = some method.owner) →
      search.graphs.get? method = graphs'.get? method) :
    (search.inProgram graphs').candidates target = search.candidates target := by
  rw [candidates_eq_filter, candidates_eq_filter]
  refine (SignatureTable.filter_definers_congr fun owner howner => ?_).symm
  exact h ⟨owner, target.signature⟩ rfl (owner_of_all howner)

/-- A call leads to the same methods in a program that agrees on the call closure. -/
theorem TracedAt.callees_congr (hagree : search.graphs.AgreeFrom graphs' search.root)
    (h : search.TracedAt walk node) (hc : node.command = .call target) :
    (search.inProgram graphs').callees walk target = search.callees walk target := by
  have hcallee : ∀ method : MethodKey, target.signature = method.signature →
      (target.owner = none ∨ target.owner = some method.owner) →
      search.graphs.get? method = graphs'.get? method := fun method hsignature howner =>
    hagree.callee walk.point method h.traced.callClosure
      ⟨target, h.callsAt hc, hsignature, howner⟩
  unfold callees
  rw [candidates_congr hcallee]
  refine if_congr Iff.rfl rfl (List.filterMap_congr fun owner hmem => ?_)
  exact congrArg (Option.map _) (hcallee ⟨owner, target.signature⟩ rfl (mem_candidates hmem)).symm

/-! ## The same tasks in both programs -/

/-- A path goes on in the same way in both programs. -/
theorem Traced.expand_congr (hagree : search.graphs.AgreeFrom graphs' search.root)
    (h : search.Traced walk) : (search.inProgram graphs').expand walk = search.expand walk := by
  have henter? : (search.inProgram graphs').enter? walk = search.enter? walk := rfl
  unfold expand
  rw [henter?]
  cases hnode : walk.activation.graph.node? walk.index with
  | none => rfl
  | some node =>
    dsimp only
    cases henter : search.enter? walk with
    | none => rfl
    | some entered =>
      dsimp only
      cases hc : node.command with
      | ret | raise | jump _ | branch _ => rfl
      | call target =>
        have hat := search.traced_invariant.enter h hnode henter
        simp only [hat.callees_congr hagree hc]

/-- A task of a path is performed alike in a program that agrees on the call closure. -/
theorem perform_congr (hagree : search.graphs.AgreeFrom graphs' search.root)
    (htask : OnPath search.Traced search.TracedAt task) (found : NgramSet) :
    (search.inProgram graphs').perform task found = search.perform task found := by
  cases htask with
  | arrive hwalk => rw [perform, perform, hwalk.expand_congr hagree]
  | emit => rfl

/-- Searches with the same starting method that perform the tasks of all paths alike have the same
result. -/
theorem PathInvariant.explore_congr {arrives : Walk → Prop} {enters : Walk → Node → Prop}
    (inv : search.PathInvariant arrives enters)
    (hperform : ∀ task found, OnPath arrives enters task →
      search'.perform task found = search.perform task found)
    (hroot : search'.root = search.root) (depth : Nat) (htask : OnPath arrives enters task)
    (found : NgramSet) :
    search'.explore depth task found = search.explore depth task found := by
  induction depth generalizing task found with
  | zero => rw [Search.explore, Search.explore, hroot, follow, follow]
  | succ depth ih =>
    rw [explore_succ, explore_succ, hperform task found htask]
    cases hresult : search.perform task found with
    | error e => rfl
    | ok result =>
      obtain ⟨found', tasks⟩ := result
      have htasks := (inv.perform htask hresult).1
      exact foldlM_congr fun task' hmem set => ih (htasks task' hmem) set

end Search

section Compiled

variable {graphs graphs' : GraphTable} {options : SearchOptions} {root : MethodKey}

/-- So both searches give the same result at every depth. -/
theorem ngramsWithin_congr (hagree : graphs.AgreeFrom graphs' root) (policy : DigPolicy)
    (options : SearchOptions) (depth : Nat) :
    ngramsWithin depth graphs' policy options root =
      ngramsWithin depth graphs policy options root := by
  rw [ngramsWithin, ngramsWithin, startingGraph, startingGraph, ← hagree.start]
  split
  · rfl
  · cases hget : graphs.get? root with
    | none => rfl
    | some graph =>
      let search : Search := ⟨graphs, policy, options, root, none⟩
      have hperform : ∀ task found, Search.OnPath search.Traced search.TracedAt task →
          (search.inProgram graphs').perform task found = search.perform task found :=
        fun task found htask => Search.perform_congr hagree htask found
      exact search.traced_invariant.explore_congr hperform rfl depth
        (.arrive (Search.traced_start hget graph.start)) .empty

/-- Searches from a method find the same n-grams in two compiled programs that agree on the method
and on all definitions that the calls in its call closure can lead to. -/
theorem ngrams_congr (hgraphs : graphs.Compiled) (hgraphs' : graphs'.Compiled)
    (hroot : (graphs.get? root).isSome) (hagree : graphs.AgreeFrom graphs' root)
    (policy : DigPolicy) (options : SearchOptions) :
    ngrams graphs' policy options root = ngrams graphs policy options root ∧
      (0 < options.size → ∃ found, ngrams graphs policy options root = .ok found) := by
  obtain ⟨graph, hget⟩ := Option.isSome_iff_exists.mp hroot
  rcases Nat.eq_zero_or_pos options.size with hzero | hsize
  · have hfails : ∀ graphs, ngrams graphs policy options root = .error (.invalidSize 0) := by
      intro graphs
      rw [ngrams, ngramsWithin, startingGraph, if_pos hzero]
      rfl
    exact ⟨by rw [hfails, hfails], fun hsize => absurd hzero (Nat.ne_of_gt hsize)⟩
  · -- Both searches end, so that neither result depends on how deep the search may go.
    obtain ⟨found, hfound⟩ := hgraphs.exists_ngramsWithin policy hsize hget
    obtain ⟨found', hfound'⟩ :=
      hgraphs'.exists_ngramsWithin policy hsize (hagree.start.symm.trans hget)
    have hrun : ngrams graphs policy options root = .ok found :=
      hfound _ (searchDepth_lt_depthLimit graphs options)
    have hrun' : ngrams graphs' policy options root = .ok found' :=
      hfound' _ (searchDepth_lt_depthLimit graphs' options)
    have hsame : found' = found := by
      have hdeep := hfound (searchDepth graphs options + searchDepth graphs' options + 1) (by omega)
      have hdeep' := hfound' (searchDepth graphs options + searchDepth graphs' options + 1)
        (by omega)
      rw [ngramsWithin_congr hagree, hdeep] at hdeep'
      exact (Except.ok.inj hdeep').symm
    exact ⟨by rw [hrun', hrun, hsame], fun _ => ⟨found, hrun⟩⟩

end Compiled

/-- A definition of the signature of `innerMethod` in another class. -/
def siblingMethod : MethodKey :=
  ⟨"t/B", "b:()V"⟩

/-- `loopProgram` with one more definition of a signature that it calls. -/
def siblingProgram : GraphTable :=
  loopProgram.insert siblingMethod loopGraph

theorem siblingProgram_compiled : siblingProgram.Compiled := by
  have hloop := loopProgram_compiled loopMethod loopGraph loopProgram_get?_loopMethod
  exact loopProgram_compiled.insert hloop siblingMethod

/-- All calls of `loopProgram` name the same class. -/
theorem loopProgram_callsAt {point : ProgramPoint} {target : CallTarget}
    (h : loopProgram.CallsAt point target) : target.owner = some "t/A" := by
  obtain ⟨graph, node, hget, hnode, hc⟩ := h
  have hgraph : graph = innerGraph ∨ graph = loopGraph := by
    rw [loopProgram, SignatureTable.get?_insert, SignatureTable.get?_insert,
      SignatureTable.get?_empty] at hget
    split at hget
    · exact .inl (Option.some.inj hget).symm
    · split at hget
      · exact .inr (Option.some.inj hget).symm
      · cases hget
  have hlt := MethodGraph.lt_size_of_node? hnode
  generalize point.index = index at hnode hlt
  rcases hgraph with rfl | rfl
  · replace hlt : index < 3 := hlt
    interval_cases index
    all_goals
      cases hnode
      cases hc <;> rfl
  · replace hlt : index < 4 := hlt
    interval_cases index
    all_goals
      cases hnode
      cases hc <;> rfl

/-- The calls of `loopProgram` name their class, so another class that defines the same signature is
not in the call closure and changes nothing. -/
theorem ngrams_congr_sibling :
    loopProgram.Compiled ∧ siblingProgram.Compiled ∧ (loopProgram.get? loopMethod).isSome ∧
      loopProgram.AgreeFrom siblingProgram loopMethod ∧
      loopProgram.get? siblingMethod ≠ siblingProgram.get? siblingMethod ∧
      ∃ found, ngrams siblingProgram commonObjectMethods loopOptions loopMethod = .ok found ∧
        loopPair ∈ found.toList := by
  have hroot : (loopProgram.get? loopMethod).isSome := by
    rw [loopProgram_get?_loopMethod]
    rfl
  have hother : ∀ method, method ≠ siblingMethod →
      loopProgram.get? method = siblingProgram.get? method := by
    intro method hne
    rw [siblingProgram, SignatureTable.get?_insert, if_neg hne.symm]
  have hagree : loopProgram.AgreeFrom siblingProgram loopMethod := by
    refine ⟨hother _ (by decide), fun point method _ hcan => hother _ ?_⟩
    rintro rfl
    obtain ⟨target, hcalls, -, hnone | howner⟩ := hcan
    · rw [loopProgram_callsAt hcalls] at hnone
      cases hnone
    · rw [loopProgram_callsAt hcalls] at howner
      exact absurd howner (by decide)
  have hpair : (ngrams loopProgram commonObjectMethods loopOptions loopMethod).map
      (fun found => decide (loopPair ∈ found.toList)) = .ok true := by
    decide +kernel
  obtain ⟨found, hfound, hmem⟩ := exists_of_map_eq_ok hpair
  have hsame := (ngrams_congr loopProgram_compiled siblingProgram_compiled hroot hagree
    commonObjectMethods loopOptions).1
  exact ⟨loopProgram_compiled, siblingProgram_compiled, hroot, hagree, by decide +kernel, found,
    hsame.trans hfound, of_decide_eq_true hmem⟩

end CallNgrams
