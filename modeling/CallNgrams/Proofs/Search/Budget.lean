import CallNgrams.Proofs.Search.Saturation

/-!
# Searches with different budgets

With a higher budget every path can be followed that can be followed with a lower one, so an
exhaustive search never finds less. But a path that the lower budget ends may come first to an
n-gram with the higher one, and with little of it left. Then the path is cut there that has found
more behind the n-gram with the lower budget.
-/

namespace CallNgrams

open Relation

/-- A path that is held back less can follow another one all along. -/
theorem Task.Freer.reached {search : Search} {free bound last : Task}
    (hsize : 0 < search.options.size) (h : Task.Freer search.SameGram free bound)
    (hpath : ReflTransGen search.Continues bound last) :
    ∃ last', ReflTransGen search.Continues free last' ∧
      Task.Freer search.SameGram last' last := by
  induction hpath with
  | refl => exact ⟨free, .refl, h⟩
  | tail _ hgo ih =>
    obtain ⟨mid, hmid, hfreer⟩ := ih
    obtain ⟨mid', hgo', hfreer'⟩ := hfreer.continues hsize hgo
    exact ⟨mid', hmid.tail hgo', hfreer'⟩

/-- So it completes whatever the other one completes. -/
theorem Task.Freer.yields {search : Search} {free bound : Task} {ngram : Ngram}
    (hsize : 0 < search.options.size) (h : Task.Freer search.SameGram free bound)
    (hyields : search.Yields bound ngram) : search.Yields free ngram := by
  obtain ⟨last, hpath, hcompletes⟩ := hyields
  obtain ⟨last', hpath', hfreer⟩ := h.reached hsize hpath
  exact ⟨last', hpath', hfreer.completes_iff.mpr hcompletes⟩

namespace Search

/-- The search with another budget. -/
def withBudget (search : Search) (budget : Nat) : Search :=
  { search with options := { search.options with maxCallDepth := budget } }

theorem budget_withBudget (search : Search) (budget : Nat) :
    (search.withBudget budget).options.budget = budget := by
  simp [withBudget, SearchOptions.budget]

/-- Tasks carry their budgets with them, so that the same paths complete the same n-grams. -/
theorem yields_withBudget (search : Search) (budget budget' : Nat) :
    (search.withBudget budget).Yields = (search.withBudget budget').Yields :=
  rfl

/-- The task that the search with another budget begins with. -/
theorem opening_withBudget (search : Search) (budget : Nat) (graph : MethodGraph) (index : Nat) :
    (search.withBudget budget).opening graph index =
      .arrive ⟨index, ⟨search.root, graph, []⟩, [], budget, .empty⟩ := by
  rw [opening, budget_withBudget]
  rfl

/-- A lower budget holds the paths of a search back more. -/
theorem freer_withBudget (search : Search) {low high : Nat} (hle : low ≤ high)
    (graph : MethodGraph) (index : Nat) :
    Task.Freer (search.withBudget high).SameGram ((search.withBudget high).opening graph index)
      ((search.withBudget low).opening graph index) := by
  rw [opening_withBudget, opening_withBudget]
  exact freer_arrive (search.withBudget high) graph index hle

end Search

/-- All that a search finds is found with a higher budget by the exhaustive search, and by the
search itself if it is completed by a path that is undisputed in the search with the higher budget.
So nothing is lost where the paths that find the n-grams there are held back no more. -/
theorem ngrams_withBudget {search : Search} {graph : MethodGraph} {low high : Nat}
    (hgraphs : search.graphs.Compiled) (hsize : 0 < search.options.size)
    (hroot : search.graphs.get? search.root = some graph) (hstart : search.start = none)
    (hle : low ≤ high) :
    ∃ less more all,
      ngrams search.graphs search.policy (search.withBudget low).options search.root = .ok less ∧
      ngrams search.graphs search.policy (search.withBudget high).options search.root = .ok more ∧
      exhaustiveNgrams search.graphs search.policy (search.withBudget high).options search.root =
        .ok all ∧
      (∀ ngram ∈ less.toList, ngram ∈ all.toList) ∧
      (∀ task ngram,
        (search.withBudget high).Undisputed ((search.withBudget low).opening graph graph.start)
          ((search.withBudget high).opening graph graph.start) task →
        (search.withBudget high).Completes task ngram → ngram ∈ more.toList) ∧
      ((∀ task finder ngram,
          ReflTransGen (search.withBudget high).Continues
            ((search.withBudget low).opening graph graph.start) task →
          (search.withBudget high).Completes task ngram →
          (search.withBudget high).FindsAt ((search.withBudget high).opening graph graph.start)
            finder ngram →
          (search.withBudget high).NoLessFree finder.walk task.walk) →
        ∀ ngram ∈ less.toList, ngram ∈ more.toList) := by
  obtain ⟨less, depth, hless, hrunLow⟩ :=
    @Search.exists_explore_opening (search.withBudget low) graph hgraphs hsize hroot hstart
  obtain ⟨more, depth', hmore, hrunHigh⟩ :=
    @Search.exists_explore_opening (search.withBudget high) graph hgraphs hsize hroot hstart
  obtain ⟨all, hall, hmem⟩ :=
    @Search.exists_exhaustive_opening (search.withBudget high) graph hgraphs hsize hroot hstart
  have hrooted : ∀ budget ≤ high, (search.withBudget high).Rooted (pointCount search.graphs + 1)
      ((search.withBudget budget).opening graph graph.start) := by
    intro budget hbudget
    rw [Search.opening_withBudget]
    refine @Search.rooted_opening (search.withBudget high) graph hgraphs hroot budget ?_
    rwa [Search.budget_withBudget]
  have henterable : (search.withBudget high).Enterable (pointCount search.graphs + 1) :=
    hgraphs.enterable search.start
  have hpositive : 0 < (search.withBudget high).options.size := hsize
  have hfree := search.freer_withBudget hle graph graph.start
  -- What the search with the lower budget finds, its paths complete with the higher one as well.
  have hyields : ∀ ngram ∈ less.toList, (search.withBudget high).Yields
      ((search.withBudget low).opening graph graph.start) ngram := by
    intro ngram hngram
    rw [search.yields_withBudget high low]
    exact Search.yields_of_mem_explore hrunLow hngram
  refine ⟨less, more, all, hless, hmore, hall, fun ngram hngram => ?_, fun task ngram hpath => ?_,
    fun hno ngram hngram => ?_⟩
  · exact (hmem ngram).mpr (hfree.yields hpositive (hyields ngram hngram))
  · exact hpath.mem_explore hpositive henterable (hrooted low hle) (hrooted high (Nat.le_refl _))
      hfree hrunHigh
  · obtain ⟨last, hreached, hcompletes⟩ := hyields ngram hngram
    have hpath := Search.Undisputed.of_reached hreached hno
    exact hpath.mem_explore hpositive henterable (hrooted low hle) (hrooted high (Nat.le_refl _))
      hfree hrunHigh hcompletes

/-- A call of a method that only loops, two calls, and a call of a method that makes a call. -/
def detourBody : Body :=
  ⟨#[some ⟨"invokestatic", [], some "// Method t/A.w:()V"⟩,
    some ⟨"invokestatic", [], some "// Method t/A.e:()V"⟩,
    some ⟨"invokestatic", [], some "// Method t/A.x:()V"⟩,
    some ⟨"invokestatic", [], some "// Method t/A.a:()V"⟩,
    some ⟨"invokestatic", [], some "// Method t/A.f:()V"⟩, some ⟨"return", [], none⟩]⟩

/-- The graph of `detourBody`. -/
def detourGraph : MethodGraph where
  nodes := #[some ⟨some 1, .call ⟨some "t/A", "w:()V"⟩⟩, some ⟨some 2, .call ⟨some "t/A", "e:()V"⟩⟩,
    some ⟨some 3, .call ⟨some "t/A", "x:()V"⟩⟩, some ⟨some 4, .call ⟨some "t/A", "a:()V"⟩⟩,
    some ⟨some 5, .call ⟨some "t/A", "f:()V"⟩⟩, some ⟨some 6, .ret⟩, some ⟨none, .ret⟩]
  start := 0
  mergePoints := []

/-- A loop without calls. -/
def idleBody : Body :=
  ⟨#[some ⟨"ifeq", ["0"], none⟩, some ⟨"return", [], none⟩]⟩

/-- The graph of `idleBody`. -/
def idleGraph : MethodGraph where
  nodes := #[some ⟨some 1, .branch [0]⟩, some ⟨some 2, .ret⟩, some ⟨none, .ret⟩]
  start := 0
  mergePoints := [0]

/-- One call. -/
def singleBody : Body :=
  ⟨#[some ⟨"invokestatic", [], some "// Method t/A.g:()V"⟩, some ⟨"return", [], none⟩]⟩

/-- The graph of `singleBody`. -/
def singleGraph : MethodGraph where
  nodes := #[some ⟨some 1, .call ⟨some "t/A", "g:()V"⟩⟩, some ⟨some 2, .ret⟩, some ⟨none, .ret⟩]
  start := 0
  mergePoints := []

/-- A method and the two methods that it calls. -/
def detourProgram : GraphTable :=
  ((SignatureTable.empty.insert loopMethod detourGraph).insert ⟨"t/A", "e:()V"⟩ idleGraph).insert
    ⟨"t/A", "f:()V"⟩ singleGraph

/-- The last call before the second of the called methods and the call in that method. -/
def detourPair : Ngram where
  head := ⟨⟨some "t/A", "a:()V"⟩, ⟨⟨loopMethod, 3⟩, []⟩⟩
  tail := [⟨⟨some "t/A", "g:()V"⟩, ⟨⟨⟨"t/A", "f:()V"⟩, 0⟩, [⟨loopMethod, 4⟩]⟩⟩]

/-- All methods of the program compile to their graphs. -/
theorem detourProgram_compiled : detourProgram.Compiled := by
  have hdetour : detourBody.compile none false loopMethod = .ok detourGraph := by decide +kernel
  have hidle : idleBody.compile none false ⟨"t/A", "e:()V"⟩ = .ok idleGraph := by decide +kernel
  have hsingle : singleBody.compile none false ⟨"t/A", "f:()V"⟩ = .ok singleGraph := by
    decide +kernel
  exact ((GraphTable.compiled_empty.insert (MethodGraph.compiled_of_compile hdetour) _).insert
    (MethodGraph.compiled_of_compile hidle) _).insert (MethodGraph.compiled_of_compile hsingle) _

theorem detourProgram_get?_loopMethod : detourProgram.get? loopMethod = some detourGraph := by
  decide +kernel

/-- A budget of two is used up by the way through the loop without calls, which then comes first to
the two calls behind it. With a budget of one there is no such way. -/
theorem detourProgram_loses_pair :
    detourProgram.Compiled ∧ detourProgram.get? loopMethod = some detourGraph ∧
      ∃ less more,
        ngrams detourProgram commonObjectMethods { forkOptions with maxCallDepth := 1 }
          loopMethod = .ok less ∧
        ngrams detourProgram commonObjectMethods { forkOptions with maxCallDepth := 2 }
          loopMethod = .ok more ∧
        detourPair ∈ less.toList ∧ detourPair ∉ more.toList := by
  have hless : (ngrams detourProgram commonObjectMethods { forkOptions with maxCallDepth := 1 }
      loopMethod).map (fun less => decide (detourPair ∈ less.toList)) = .ok true := by
    decide +kernel
  have hmore : (ngrams detourProgram commonObjectMethods { forkOptions with maxCallDepth := 2 }
      loopMethod).map (fun more => decide (detourPair ∈ more.toList)) = .ok false := by
    decide +kernel
  obtain ⟨less, hless, hmem⟩ := exists_of_map_eq_ok hless
  obtain ⟨more, hmore, hnot⟩ := exists_of_map_eq_ok hmore
  exact ⟨detourProgram_compiled, detourProgram_get?_loopMethod, less, more, hless, hmore,
    of_decide_eq_true hmem, of_decide_eq_false hnot⟩

/-- The search from the start of the loop. -/
def loopSearch : Search :=
  ⟨loopProgram, commonObjectMethods, loopOptions, loopMethod, none⟩

/-- The loop and the method that it calls come to each pair in one way only, so that the pair which
is found with a budget of two is found with a budget of three. -/
theorem ngrams_withBudget_loop :
    loopSearch.graphs.Compiled ∧ 0 < loopSearch.options.size ∧
      loopSearch.graphs.get? loopSearch.root = some loopGraph ∧ loopSearch.start = none ∧
      (2 : Nat) ≤ 3 ∧
      ∃ less more, ngrams loopProgram commonObjectMethods { loopOptions with maxCallDepth := 2 }
          loopMethod = .ok less ∧
        ngrams loopProgram commonObjectMethods { loopOptions with maxCallDepth := 3 }
          loopMethod = .ok more ∧
        loopPair ∈ less.toList ∧ loopPair ∈ more.toList := by
  have hless : (ngrams loopProgram commonObjectMethods { loopOptions with maxCallDepth := 2 }
      loopMethod).map (fun less => decide (loopPair ∈ less.toList)) = .ok true := by
    decide +kernel
  have hcheck : (loopSearch.withBudget 3).checkFinders 30
      ((loopSearch.withBudget 2).opening loopGraph loopGraph.start)
      ((loopSearch.withBudget 3).opening loopGraph loopGraph.start) = .ok true := by
    decide +kernel
  obtain ⟨less, more, all, hfound, hmore, -, -, -, hkeeps⟩ :=
    @ngrams_withBudget loopSearch loopGraph 2 3 loopProgram_compiled (by decide)
      loopProgram_get?_loopMethod rfl (by decide)
  rw [show ngrams loopProgram commonObjectMethods { loopOptions with maxCallDepth := 2 }
    loopMethod = .ok less from hfound] at hless
  have hmem := of_decide_eq_true (Except.ok.inj hless)
  exact ⟨loopProgram_compiled, by decide, loopProgram_get?_loopMethod, rfl, by decide, less, more,
    hfound, hmore, hmem, hkeeps (fun task finder ngram =>
      Search.noLessFree_of_checkFinders rfl hcheck) loopPair hmem⟩

end CallNgrams
