import CallNgrams.Proofs.Search.Rendered
import CallNgrams.Proofs.Search.Shared
import CallNgrams.Trace

/-!
# Traces of several locations

The locations of a request are grouped by their methods, and the searches from the indices of a
method share one set of n-grams. All the same the traces are those of the single locations, whatever
the order of the locations and however often one is named.
-/

namespace CallNgrams

namespace Trace

/-! ## Targets -/

section Targets

variable {targets : List Target} {point other : ProgramPoint}

/-- A program point is one that the targets are searched from. -/
def Listed (targets : List Target) (point : ProgramPoint) : Prop :=
  ∃ target ∈ targets, target.method = point.method ∧ point.index ∈ target.indices

/-- Every target has indices and lists each of them once. -/
def Grouped (targets : List Target) : Prop :=
  ∀ target ∈ targets, target.indices ≠ [] ∧ target.indices.Nodup

theorem listed_cons {target : Target} : Listed (target :: targets) point ↔
    target.method = point.method ∧ point.index ∈ target.indices ∨ Listed targets point := by
  simp only [Listed, List.mem_cons, exists_eq_or_imp]

/-- A point that is added is listed, and so are the others as before. -/
theorem listed_addPoint :
    Listed (addPoint point targets) other ↔ other = point ∨ Listed targets other := by
  obtain ⟨method, index⟩ := point
  obtain ⟨method', index'⟩ := other
  induction targets with
  | nil => simp [addPoint, Listed, eq_comm]
  | cons target rest ih =>
    rw [addPoint]
    split
    case isTrue hmethod =>
      obtain rfl : target.method = method := hmethod
      split
      case isTrue hindex =>
        simp only [listed_cons, ProgramPoint.mk.injEq]
        grind
      case isFalse =>
        simp only [listed_cons, List.mem_append, List.mem_singleton, ProgramPoint.mk.injEq]
        grind
    case isFalse =>
      rw [listed_cons, ih, listed_cons, or_left_comm]

/-- Adding a point keeps one target for each method. -/
theorem Grouped.addPoint (h : Grouped targets) (point : ProgramPoint) :
    Grouped (addPoint point targets) := by
  induction targets with
  | nil => simp [Trace.addPoint, Grouped]
  | cons target rest ih =>
    obtain ⟨htarget, hrest⟩ := List.forall_mem_cons.mp h
    rw [Trace.addPoint]
    split
    · split
      · exact h
      case isFalse hindex =>
        refine List.forall_mem_cons.mpr ⟨⟨?_, ?_⟩, hrest⟩
        · exact List.append_ne_nil_of_right_ne_nil _ (List.cons_ne_nil _ _)
        · exact List.concat_eq_append ▸ htarget.2.concat hindex
    · exact List.forall_mem_cons.mpr ⟨htarget, ih hrest⟩

/-- Reading locations one after the other lists the points that they name. -/
theorem exists_foldlM_addPoint {locations : List String} (hgrouped : Grouped targets)
    (h : ∀ location ∈ locations, ∃ point, readPoint location = .ok point) :
    ∃ targets', locations.foldlM (fun targets text =>
        (readPoint text).map fun point => addPoint point targets) targets = .ok targets' ∧
      Grouped targets' ∧ ∀ point, Listed targets' point ↔
        Listed targets point ∨ ∃ location ∈ locations, readPoint location = .ok point := by
  induction locations generalizing targets with
  | nil => exact ⟨targets, rfl, hgrouped, fun point => by simp⟩
  | cons location locations ih =>
    obtain ⟨point, hpoint⟩ := h location List.mem_cons_self
    obtain ⟨targets', hrun, hgrouped', hlisted⟩ := ih (hgrouped.addPoint point)
      fun other hother => h other (List.mem_cons_of_mem _ hother)
    refine ⟨targets', ?_, hgrouped', fun other => ?_⟩
    · rw [List.foldlM_cons, hpoint]
      exact hrun
    · rw [hlisted other, listed_addPoint]
      simp only [List.mem_cons, exists_eq_or_imp, hpoint, Except.ok.injEq, @eq_comm _ other point,
        or_left_comm, or_assoc]

/-- If all locations can be read, exactly their program points are listed, method by method. -/
theorem exists_readTargets {locations : List String}
    (h : ∀ location ∈ locations, ∃ point, readPoint location = .ok point) :
    ∃ targets, readTargets locations = .ok targets ∧ Grouped targets ∧
      ∀ point, Listed targets point ↔ ∃ location ∈ locations, readPoint location = .ok point := by
  have hnone : Grouped [] := fun target htarget => absurd htarget List.not_mem_nil
  obtain ⟨targets, hrun, hgrouped, hlisted⟩ := exists_foldlM_addPoint hnone h
  refine ⟨targets, hrun, hgrouped, fun point => ?_⟩
  rw [hlisted point, Listed]
  simp

end Targets

/-! ## Traces without duplicates -/

/-- Keeps a trace that has not been met before. -/
def keepFirst (state : Std.TreeSet RenderedNgram × List RenderedNgram) (trace : RenderedNgram) :
    Std.TreeSet RenderedNgram × List RenderedNgram :=
  if state.1.contains trace then state else (state.1.insert trace, trace :: state.2)

theorem distinct_eq (traces : List RenderedNgram) :
    distinct traces = (traces.foldl keepFirst (∅, [])).2.reverse :=
  rfl

/-- The traces met before are those that are kept, each of them once. -/
structure Kept (met : List RenderedNgram)
    (state : Std.TreeSet RenderedNgram × List RenderedNgram) : Prop where
  seen : ∀ trace, trace ∈ state.1 ↔ trace ∈ state.2
  mem : ∀ trace, trace ∈ state.2 ↔ trace ∈ met
  nodup : state.2.Nodup

/-- The loop keeps a trace when it first meets it. -/
theorem Kept.keepFirst {met : List RenderedNgram}
    {state : Std.TreeSet RenderedNgram × List RenderedNgram} (h : Kept met state)
    (trace : RenderedNgram) : Kept (met ++ [trace]) (keepFirst state trace) := by
  rw [Trace.keepFirst]
  split
  case isTrue hseen =>
    have hmet : trace ∈ met :=
      (h.mem trace).mp ((h.seen trace).mp (Std.TreeSet.contains_iff_mem.mp hseen))
    refine ⟨h.seen, fun other => ?_, h.nodup⟩
    rw [h.mem other, List.mem_append, List.mem_singleton]
    grind
  case isFalse hseen =>
    have hnew : trace ∉ state.2 := fun hmem =>
      hseen (Std.TreeSet.contains_iff_mem.mpr ((h.seen trace).mpr hmem))
    refine ⟨fun other => ?_, fun other => ?_, List.nodup_cons.mpr ⟨hnew, h.nodup⟩⟩
    · rw [Std.TreeSet.mem_insert, Std.LawfulEqOrd.compare_eq_iff_eq, h.seen other, List.mem_cons,
        eq_comm]
    · rw [List.mem_cons, h.mem other, List.mem_append, List.mem_singleton, or_comm]

theorem Kept.foldl {met : List RenderedNgram}
    {state : Std.TreeSet RenderedNgram × List RenderedNgram} (h : Kept met state)
    (traces : List RenderedNgram) : Kept (met ++ traces) (traces.foldl Trace.keepFirst state) := by
  induction traces generalizing met state with
  | nil => rwa [List.append_nil]
  | cons trace traces ih =>
    rw [List.foldl_cons, List.append_cons]
    exact ih (h.keepFirst trace)

theorem kept_distinct (traces : List RenderedNgram) :
    Kept traces (traces.foldl keepFirst (∅, [])) := by
  have hnone : Kept [] ((∅ : Std.TreeSet RenderedNgram), []) :=
    ⟨fun trace => by simp, fun trace => Iff.rfl, List.nodup_nil⟩
  exact hnone.foldl traces

/-- No trace is left twice. -/
theorem nodup_distinct (traces : List RenderedNgram) : (distinct traces).Nodup := by
  rw [distinct_eq, List.nodup_reverse]
  exact (kept_distinct traces).nodup

/-- And none is lost. -/
theorem mem_distinct {traces : List RenderedNgram} {trace : RenderedNgram} :
    trace ∈ distinct traces ↔ trace ∈ traces := by
  rw [distinct_eq, List.mem_reverse]
  exact (kept_distinct traces).mem trace

/-! ## Searching targets -/

section Find

variable {graphs : GraphTable} {policy : DigPolicy} {options : SearchOptions} {depth : Nat}
  {sequence : List String} {method : MethodKey} {indices : List Nat} {targets : List Target}
  {traces : List RenderedNgram} {trace : RenderedNgram}

/-- A search that succeeds has a graph to start in, and n-grams of a positive size. -/
theorem startingGraph_of_searchTarget {target : Target} {found : NgramSet}
    (h : searchTarget depth graphs policy options target = .ok found) :
    0 < options.size ∧ ∃ graph, graphs.get? target.method = some graph := by
  rw [searchTarget] at h
  split at h
  · cases h
  case h_2 graph hgraph =>
    obtain ⟨start, hstart⟩ : ∃ start, startingGraph graphs options target.method = .ok start := by
      split at h
      · obtain ⟨start, hstart, -⟩ := exists_of_bind_eq_ok h
        exact ⟨start, hstart⟩
      · obtain ⟨start, hstart, -⟩ := exists_of_bind_eq_ok h
        exact ⟨start, hstart⟩
    exact ⟨(get?_of_startingGraph hstart).1, graph, hgraph⟩

/-- A target is searched from one of its indices after the other, into the same set. -/
theorem searchTarget_eq {graph : MethodGraph} (hsize : 0 < options.size)
    (hgraph : graphs.get? method = some graph) (hindices : indices ≠ []) :
    searchTarget depth graphs policy options ⟨method, indices⟩ =
      indices.foldlM (addNgramsFrom depth graphs policy options method graph) .empty := by
  rw [searchTarget, hgraph, ← ngramsFromWithin_eq hsize hgraph]
  exact if_neg fun hempty => hindices (List.isEmpty_iff.mp hempty)

/-- The n-grams of a target are those that start at each of its indices. -/
theorem exists_searchTarget (hindices : indices ≠ []) (hnodup : indices.Nodup)
    (hsingle : ∀ index ∈ indices, ∃ single,
      searchTarget depth graphs policy options ⟨method, [index]⟩ = .ok single) :
    ∃ found, searchTarget depth graphs policy options ⟨method, indices⟩ = .ok found ∧
      ∀ ngram, ngram ∈ found.toList ↔ ∃ index ∈ indices, ∃ single,
        searchTarget depth graphs policy options ⟨method, [index]⟩ = .ok single ∧
          ngram ∈ single.toList := by
  obtain ⟨first, hfirst⟩ := List.exists_mem_of_ne_nil _ hindices
  obtain ⟨_, hrun⟩ := hsingle first hfirst
  obtain ⟨hsize, graph, hgraph⟩ := startingGraph_of_searchTarget hrun
  have hone (index : Nat) : searchTarget depth graphs policy options ⟨method, [index]⟩ =
      addNgramsFrom depth graphs policy options method graph .empty index := by
    rw [searchTarget_eq hsize hgraph (List.cons_ne_nil _ _), List.foldlM_cons]
    exact bind_pure _
  simp only [hone] at hsingle ⊢
  rw [searchTarget_eq hsize hgraph hindices]
  obtain ⟨all, hall, hmem⟩ := exists_foldlM_addNgramsFrom hgraph hnodup hsingle
    fun ngram hngram => absurd hngram NgramSet.not_mem_empty
  refine ⟨all, hall, fun ngram => ?_⟩
  rw [hmem ngram, or_iff_right NgramSet.not_mem_empty]

/-- The traces of a sequence in one target. -/
def targetTraces (graphs : GraphTable) (policy : DigPolicy) (options : SearchOptions)
    (sequence : List String) (target : Target) : Except Error (List RenderedNgram) :=
  (searchTarget (depthLimit graphs options) graphs policy options target).map fun ngrams =>
    ngrams.render.flatten.filter (hasLabels sequence)

/-- The traces of a set are its rendered n-grams that have the wanted labels. -/
theorem mem_filter_render {found : NgramSet} :
    trace ∈ found.render.flatten.filter (hasLabels sequence) ↔
      ∃ ngram ∈ found.toList, ngram.render = trace ∧ hasLabels sequence trace = true := by
  rw [List.mem_filter, NgramSet.mem_flatten_render]
  simp only [exists_and_right, ← and_assoc]

/-- The traces of a target are those that start at each of its indices. -/
theorem exists_targetTraces (hindices : indices ≠ []) (hnodup : indices.Nodup)
    (hsingle : ∀ index ∈ indices, ∃ single,
      targetTraces graphs policy options sequence ⟨method, [index]⟩ = .ok single) :
    ∃ traces, targetTraces graphs policy options sequence ⟨method, indices⟩ = .ok traces ∧
      ∀ trace, trace ∈ traces ↔ ∃ index ∈ indices, ∃ single,
        targetTraces graphs policy options sequence ⟨method, [index]⟩ = .ok single ∧
          trace ∈ single := by
  obtain ⟨found, hfound, hmem⟩ := exists_searchTarget hindices hnodup fun index hindex =>
    exists_map_ok_iff.mp (hsingle index hindex)
  refine ⟨_, by rw [targetTraces, hfound]; rfl, fun trace => ?_⟩
  rw [mem_filter_render]
  constructor
  · rintro ⟨ngram, hngram, hrender⟩
    obtain ⟨index, hindex, single, hrun, hsingle⟩ := (hmem ngram).mp hngram
    refine ⟨index, hindex, _, by rw [targetTraces, hrun]; rfl, ?_⟩
    exact mem_filter_render.mpr ⟨ngram, hsingle, hrender⟩
  · rintro ⟨index, hindex, _, hrun, htrace⟩
    obtain ⟨single, hsearch, rfl⟩ := exists_of_map_eq_ok hrun
    obtain ⟨ngram, hngram, hrender⟩ := mem_filter_render.mp htrace
    exact ⟨ngram, (hmem ngram).mpr ⟨index, hindex, single, hsearch, hngram⟩, hrender⟩

/-- Traces are found target by target, and repetitions are dropped at the end. -/
theorem find_eq (htargets : targets ≠ []) :
    find graphs policy options sequence targets =
      (targets.mapM (targetTraces graphs policy options sequence)).map
        fun found => distinct found.flatten := by
  rw [find, if_neg fun hempty => htargets (List.isEmpty_iff.mp hempty)]
  rfl

/-- The traces of targets are the traces of each of them. -/
theorem exists_find (htargets : targets ≠ [])
    (h : ∀ target ∈ targets, ∃ own,
      targetTraces graphs policy options sequence target = .ok own) :
    ∃ traces, find graphs policy options sequence targets = .ok traces ∧ traces.Nodup ∧
      ∀ trace, trace ∈ traces ↔ ∃ target ∈ targets, ∃ own,
        targetTraces graphs policy options sequence target = .ok own ∧ trace ∈ own := by
  obtain ⟨found, hfound, hback, hforth⟩ := exists_mapM_ok
    (R := fun target own => targetTraces graphs policy options sequence target = .ok own) targets
    fun target htarget => by
      obtain ⟨own, hown⟩ := h target htarget
      exact ⟨own, hown, hown⟩
  refine ⟨distinct found.flatten, by rw [find_eq htargets, hfound]; rfl, nodup_distinct _,
    fun trace => ?_⟩
  rw [mem_distinct, List.mem_flatten]
  constructor
  · rintro ⟨own, hown, htrace⟩
    obtain ⟨target, htarget, hrun⟩ := hback own hown
    exact ⟨target, htarget, own, hrun, htrace⟩
  · rintro ⟨target, htarget, own, hrun, htrace⟩
    obtain ⟨own', hown', hrun'⟩ := hforth target htarget
    rw [hrun] at hrun'
    obtain rfl := Except.ok.inj hrun'
    exact ⟨own, hown', htrace⟩

/-- The traces of targets are those that start at the program points that they list. -/
theorem exists_find_of_listed (htargets : targets ≠ []) (hgrouped : Grouped targets)
    (h : ∀ point, Listed targets point → ∃ single,
      targetTraces graphs policy options sequence ⟨point.method, [point.index]⟩ = .ok single) :
    ∃ traces, find graphs policy options sequence targets = .ok traces ∧ traces.Nodup ∧
      ∀ trace, trace ∈ traces ↔ ∃ point, Listed targets point ∧ ∃ single,
        targetTraces graphs policy options sequence ⟨point.method, [point.index]⟩ = .ok single ∧
          trace ∈ single := by
  have hown : ∀ target ∈ targets, ∃ own,
      targetTraces graphs policy options sequence target = .ok own ∧
        ∀ trace, trace ∈ own ↔ ∃ index ∈ target.indices, ∃ single,
          targetTraces graphs policy options sequence ⟨target.method, [index]⟩ = .ok single ∧
            trace ∈ single := by
    intro target htarget
    obtain ⟨hindices, hnodup⟩ := hgrouped target htarget
    exact exists_targetTraces hindices hnodup fun index hindex =>
      h ⟨target.method, index⟩ ⟨target, htarget, rfl, hindex⟩
  obtain ⟨traces, hfind, hnodup, hmem⟩ := exists_find htargets fun target htarget => by
    obtain ⟨own, hrun, -⟩ := hown target htarget
    exact ⟨own, hrun⟩
  refine ⟨traces, hfind, hnodup, fun trace => (hmem trace).trans ⟨?_, ?_⟩⟩
  · rintro ⟨target, htarget, own, hrun, htrace⟩
    obtain ⟨own', hrun', hmem'⟩ := hown target htarget
    rw [hrun] at hrun'
    obtain rfl := Except.ok.inj hrun'
    obtain ⟨index, hindex, hsingle⟩ := (hmem' trace).mp htrace
    exact ⟨⟨target.method, index⟩, ⟨target, htarget, rfl, hindex⟩, hsingle⟩
  · rintro ⟨point, ⟨target, htarget, hmethod, hindex⟩, hsingle⟩
    obtain ⟨own, hrun, hmem'⟩ := hown target htarget
    rw [← hmethod] at hsingle
    exact ⟨target, htarget, own, hrun, (hmem' trace).mpr ⟨point.index, hindex, hsingle⟩⟩

/-! ## Searching from locations -/

/-- The traces of a sequence at the given locations. -/
def findAt (graphs : GraphTable) (policy : DigPolicy) (options : SearchOptions)
    (sequence locations : List String) : Except Error (List RenderedNgram) := do
  let targets ← readTargets locations
  find graphs policy options sequence targets

/-- One location is searched from its program point. -/
theorem findAt_singleton (location : String) :
    findAt graphs policy options sequence [location] = (readPoint location >>= fun point =>
      (targetTraces graphs policy options sequence ⟨point.method, [point.index]⟩).map
        distinct) := by
  rw [findAt, readTargets, List.foldlM_cons]
  cases readPoint location with
  | error e => rfl
  | ok point =>
    change find graphs policy options sequence [⟨point.method, [point.index]⟩] =
      (targetTraces graphs policy options sequence ⟨point.method, [point.index]⟩).map distinct
    rw [find_eq (List.cons_ne_nil _ _), List.mapM_cons, List.mapM_nil]
    cases targetTraces graphs policy options sequence ⟨point.method, [point.index]⟩ with
    | error e => rfl
    | ok own =>
      change Except.ok (distinct [own].flatten) = .ok (distinct own)
      rw [List.flatten_singleton]

theorem findAt_singleton_eq_ok_iff {location : String} :
    findAt graphs policy options sequence [location] = .ok traces ↔
      ∃ point own, readPoint location = .ok point ∧
        targetTraces graphs policy options sequence ⟨point.method, [point.index]⟩ = .ok own ∧
        distinct own = traces := by
  rw [findAt_singleton]
  constructor
  · intro h
    obtain ⟨point, hpoint, hrun⟩ := exists_of_bind_eq_ok h
    obtain ⟨own, hown, heq⟩ := exists_of_map_eq_ok hrun
    exact ⟨point, own, hpoint, hown, heq⟩
  · rintro ⟨point, own, hpoint, hown, rfl⟩
    rw [hpoint]
    exact congrArg (Except.map distinct) hown

/-- The traces at locations are the traces at each of them. -/
theorem exists_findAt {locations : List String} (hlocations : locations ≠ [])
    (h : ∀ location ∈ locations, ∃ single,
      findAt graphs policy options sequence [location] = .ok single) :
    ∃ traces, findAt graphs policy options sequence locations = .ok traces ∧ traces.Nodup ∧
      ∀ trace, trace ∈ traces ↔ ∃ location ∈ locations, ∃ single,
        findAt graphs policy options sequence [location] = .ok single ∧ trace ∈ single := by
  have hreads : ∀ location ∈ locations, ∃ point own, readPoint location = .ok point ∧
      targetTraces graphs policy options sequence ⟨point.method, [point.index]⟩ = .ok own := by
    intro location hlocation
    obtain ⟨single, hsingle⟩ := h location hlocation
    obtain ⟨point, own, hpoint, hown, -⟩ := findAt_singleton_eq_ok_iff.mp hsingle
    exact ⟨point, own, hpoint, hown⟩
  obtain ⟨targets, htargets, hgrouped, hlisted⟩ := exists_readTargets fun location hlocation => by
    obtain ⟨point, -, hpoint, -⟩ := hreads location hlocation
    exact ⟨point, hpoint⟩
  have hne : targets ≠ [] := by
    obtain ⟨location, hlocation⟩ := List.exists_mem_of_ne_nil _ hlocations
    obtain ⟨point, -, hpoint, -⟩ := hreads location hlocation
    obtain ⟨target, htarget, -⟩ := (hlisted point).mpr ⟨location, hlocation, hpoint⟩
    exact List.ne_nil_of_mem htarget
  have hpoints : ∀ point, Listed targets point → ∃ single,
      targetTraces graphs policy options sequence ⟨point.method, [point.index]⟩ = .ok single := by
    intro point hpoint
    obtain ⟨location, hlocation, hread⟩ := (hlisted point).mp hpoint
    obtain ⟨point', own, hread', hown⟩ := hreads location hlocation
    rw [hread] at hread'
    obtain rfl := Except.ok.inj hread'
    exact ⟨own, hown⟩
  obtain ⟨traces, hfind, hnodup, hmem⟩ := exists_find_of_listed hne hgrouped hpoints
  refine ⟨traces, by rw [findAt, htargets]; exact hfind, hnodup, fun trace =>
    (hmem trace).trans ⟨?_, ?_⟩⟩
  · rintro ⟨point, hpoint, own, hown, htrace⟩
    obtain ⟨location, hlocation, hread⟩ := (hlisted point).mp hpoint
    exact ⟨location, hlocation, distinct own,
      findAt_singleton_eq_ok_iff.mpr ⟨point, own, hread, hown, rfl⟩, mem_distinct.mpr htrace⟩
  · rintro ⟨location, hlocation, single, hsingle, htrace⟩
    obtain ⟨point, own, hread, hown, rfl⟩ := findAt_singleton_eq_ok_iff.mp hsingle
    exact ⟨point, (hlisted point).mpr ⟨location, hlocation, hread⟩, own, hown,
      mem_distinct.mp htrace⟩

/-- The traces at a location are the n-grams that start there and have the labels of a sequence. -/
theorem exists_findAt_singleton {location : String} {point : ProgramPoint} {found : NgramSet}
    (hpoint : readPoint location = .ok point)
    (hrun : searchTarget (depthLimit graphs options) graphs policy options
      ⟨point.method, [point.index]⟩ = .ok found) :
    ∃ single, findAt graphs policy options sequence [location] = .ok single ∧
      ∀ trace, trace ∈ single ↔
        ∃ ngram ∈ found.toList, ngram.render = trace ∧ hasLabels sequence trace = true := by
  have hown : targetTraces graphs policy options sequence ⟨point.method, [point.index]⟩ =
      .ok (found.render.flatten.filter (hasLabels sequence)) := by
    rw [targetTraces, hrun]
    rfl
  refine ⟨_, findAt_singleton_eq_ok_iff.mpr ⟨point, _, hpoint, hown, rfl⟩, fun trace => ?_⟩
  rw [mem_distinct, mem_filter_render]

/-- If the search from each location succeeds, so does the search from all of them. It finds the
traces of each location, every one once, and naming the same locations in another order or more
often only changes the order of the traces. -/
theorem findAt_union (graphs : GraphTable) (policy : DigPolicy) (options : SearchOptions)
    (sequence : List String) {locations : List String} (hlocations : locations ≠ [])
    (h : ∀ location ∈ locations, ∃ single,
      findAt graphs policy options sequence [location] = .ok single) :
    ∃ traces, findAt graphs policy options sequence locations = .ok traces ∧ traces.Nodup ∧
      (∀ trace, trace ∈ traces ↔ ∃ location ∈ locations, ∃ single,
        findAt graphs policy options sequence [location] = .ok single ∧ trace ∈ single) ∧
      ∀ others : List String, (∀ location, location ∈ others ↔ location ∈ locations) →
        ∃ traces', findAt graphs policy options sequence others = .ok traces' ∧
          traces'.Perm traces := by
  obtain ⟨traces, hrun, hnodup, hmem⟩ := exists_findAt hlocations h
  refine ⟨traces, hrun, hnodup, hmem, fun others hothers => ?_⟩
  obtain ⟨first, hfirst⟩ := List.exists_mem_of_ne_nil _ hlocations
  obtain ⟨traces', hrun', hnodup', hmem'⟩ :=
    exists_findAt (List.ne_nil_of_mem ((hothers first).mpr hfirst))
      fun location hlocation => h location ((hothers location).mp hlocation)
  refine ⟨traces', hrun', (List.perm_ext_iff_of_nodup hnodup' hnodup).mpr fun trace => ?_⟩
  rw [hmem' trace, hmem trace]
  simp only [hothers]

end Find

/-- Two calls of the same method in a loop. -/
def twiceGraph : MethodGraph where
  nodes := #[some ⟨some 1, .call ⟨some "t/A", "a:()V"⟩⟩,
    some ⟨some 2, .call ⟨some "t/A", "a:()V"⟩⟩, some ⟨some 3, .branch [0]⟩, some ⟨none, .ret⟩]
  start := 0
  mergePoints := [0]

/-- Two methods with the loop of `twiceGraph`. -/
def twiceProgram : GraphTable :=
  (SignatureTable.empty.insert loopMethod twiceGraph).insert innerMethod twiceGraph

/-- The labels of two calls of `twiceGraph`. -/
def twiceLabels : List String :=
  ["t/A.a:()V", "t/A.a:()V"]

/-- Both calls of `loopMethod`, one of them named again with a depth, and the first call of
`innerMethod`. -/
def twiceLocations : List String :=
  ["t/A.m:()V,1", "t/A.b:()V,0", "t/A.m:()V,0", "t/A.m:()V,1 >3"]

/-- The second call of `loopMethod` and, over the branch, the first one. -/
def twicePair : Ngram where
  head := ⟨⟨some "t/A", "a:()V"⟩, ⟨⟨loopMethod, 1⟩, []⟩⟩
  tail := [⟨⟨some "t/A", "a:()V"⟩, ⟨⟨loopMethod, 0⟩, []⟩⟩]

/-- The search from the first call of the loop has met the second one already, and still each of
them has its trace, in whatever order and how often they are named. -/
theorem findAt_union_twice :
    twiceLocations ≠ [] ∧
      (∀ location ∈ twiceLocations, ∃ single,
        findAt twiceProgram commonObjectMethods loopOptions twiceLabels [location] = .ok single) ∧
      ∃ traces traces',
        findAt twiceProgram commonObjectMethods loopOptions twiceLabels twiceLocations =
          .ok traces ∧
        traces.Nodup ∧ twicePair.render ∈ traces ∧
        findAt twiceProgram commonObjectMethods loopOptions twiceLabels
          (twiceLocations.reverse ++ twiceLocations) = .ok traces' ∧
        traces'.Perm traces := by
  have hruns : ∀ location ∈ twiceLocations, (readPoint location >>= fun point =>
      (searchTarget (depthLimit twiceProgram loopOptions) twiceProgram commonObjectMethods
        loopOptions ⟨point.method, [point.index]⟩).map fun found => found.contains twicePair) =
        .ok (location != "t/A.b:()V,0" && location != "t/A.m:()V,0") := by
    decide +kernel
  have hsingle : ∀ location ∈ twiceLocations, ∃ single,
      findAt twiceProgram commonObjectMethods loopOptions twiceLabels [location] = .ok single ∧
        (location = "t/A.m:()V,1" → twicePair.render ∈ single) := by
    intro location hlocation
    obtain ⟨point, hpoint, hrun⟩ := exists_of_bind_eq_ok (hruns location hlocation)
    obtain ⟨found, hfound, hpair⟩ := exists_of_map_eq_ok hrun
    obtain ⟨single, hsingle, hmem⟩ := exists_findAt_singleton hpoint hfound
    refine ⟨single, hsingle, ?_⟩
    rintro rfl
    exact (hmem _).mpr ⟨twicePair, NgramSet.contains_iff.mp hpair, rfl, by decide +kernel⟩
  have hends : ∀ location ∈ twiceLocations, ∃ single,
      findAt twiceProgram commonObjectMethods loopOptions twiceLabels [location] = .ok single := by
    intro location hlocation
    obtain ⟨single, hrun, -⟩ := hsingle location hlocation
    exact ⟨single, hrun⟩
  obtain ⟨traces, hrun, hnodup, hmem, hothers⟩ :=
    findAt_union twiceProgram commonObjectMethods loopOptions twiceLabels
      (by decide : twiceLocations ≠ []) hends
  obtain ⟨traces', hrun', hperm⟩ := hothers (twiceLocations.reverse ++ twiceLocations) (by simp)
  obtain ⟨single, hrunAt, htrace⟩ := hsingle "t/A.m:()V,1" List.mem_cons_self
  exact ⟨by decide, hends, traces, traces', hrun, hnodup,
    (hmem _).mpr ⟨_, List.mem_cons_self, single, hrunAt, htrace rfl⟩, hrun', hperm⟩

end Trace

end CallNgrams
