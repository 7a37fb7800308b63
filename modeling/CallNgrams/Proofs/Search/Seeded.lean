import CallNgrams.Proofs.Search.Budget

/-!
# Searches from the first call of an n-gram

An n-gram that the search from the start of a method finds is found by the search from its first
call as well, if repetitions are allowed. A path that comes to the first call has more marks, less
of the budget and older calls in its gram than the path that begins there. So the second path can
follow the first one up to the last call of the n-gram. It completes no n-gram on the way, for it
has not made enough calls, and so it is not cut.
-/

namespace CallNgrams

open Relation

/-! ## Grams that begin later -/

/-- A gram without more than its last `count` calls. -/
structure Gram.LastCalls (count : Nat) (gram gram' : Gram) : Prop where
  items_eq : gram.items = gram'.items.take count
  le_length : count ≤ gram'.items.length

theorem Gram.LastCalls.length_eq {count : Nat} {gram gram' : Gram}
    (h : LastCalls count gram gram') : gram.items.length = count := by
  rw [h.items_eq, List.length_take, Nat.min_eq_left h.le_length]

theorem Gram.isFree_take_of_isFree {signature : String} {count : Nat} {items : List GramItem}
    (h : isFree signature count items = true) (size : Nat) :
    isFree signature count (items.take size) = true := by
  induction count generalizing items size with
  | zero => rfl
  | succ count ih =>
    cases items with
    | nil => rwa [List.take_nil]
    | cons item items =>
      cases size with
      | zero => rfl
      | succ size =>
        rw [isFree, Bool.and_eq_true] at h
        rw [List.take_succ_cons, isFree, h.1, ih h.2 size, Bool.and_true]

namespace Search

variable {search : Search} {walk free bound : Walk} {task task' : Task} {tasks : List Task}
  {target : CallTarget} {ngram : Ngram} {graph : MethodGraph} {count index points : Nat}

theorem lastCalls_order (hcount : 0 < count) (hle : count ≤ search.options.size) :
    search.GramOrder (Gram.LastCalls count) where
  count_ne {free bound} h _ hfree := by
    rw [Gram.count_eq, h.length_eq] at hfree
    omega
  recentlyFree {free bound signature} h hbound := by
    rw [Gram.isRecentlyFree, h.items_eq]
    exact Gram.isFree_take_of_isFree hbound count
  keepLast {free bound} h := by
    refine ⟨?_, ?_⟩
    · rw [Gram.items_keepLast, Gram.items_keepLast, h.items_eq, List.take_take, List.take_take,
        Nat.min_comm]
    · rw [Gram.items_keepLast, List.length_take]
      exact Nat.le_min.mpr ⟨hle, h.le_length⟩

/-- The same call makes both grams longer. -/
theorem lastCalls_called (h : Gram.LastCalls count free.gram bound.gram)
    (hframe : free.frame = bound.frame) (target : CallTarget) :
    Gram.LastCalls (count + 1) (called free target) (called bound target) := by
  refine ⟨?_, ?_⟩
  · rw [called, called, Gram.items_push, Gram.items_push, List.take_succ_cons, hframe, h.items_eq]
  · rw [called, Gram.items_push, List.length_cons]
    exact Nat.succ_le_succ h.le_length

/-! ## What a path forgets -/

theorem gram_of_mem_callees {callee : Walk} (h : callee ∈ search.callees walk target) :
    callee.gram = walk.gram.keepLast search.options.size := by
  rw [callees] at h
  split at h
  · cases h
  · obtain ⟨owner, -, hget⟩ := List.mem_filterMap.mp h
    obtain ⟨graph, -, rfl⟩ := Option.map_eq_some_iff.mp hget
    rfl

/-- On the way to the next call a path at most forgets calls that no n-gram needs any more. -/
theorem gram_of_mem_expand (h : search.expand walk = .ok tasks) (htask : task ∈ tasks) :
    task.walk.gram = walk.gram ∨ task.walk.gram = walk.gram.keepLast search.options.size := by
  obtain ⟨node, entered, hnode, henter, hgo⟩ := mem_expand h htask
  rw [← (entered_of_enter? henter).gram]
  rcases hgo with ⟨walk', rfl, hleads⟩ | ⟨target, -, rfl⟩
  · cases hleads with
    | back | jump | decline => exact .inl rfl
    | choose | into => exact .inr rfl
    | past hc =>
      -- A path does not arrive behind a call before it has made it.
      simp only [expand, hnode, henter, hc] at h
      obtain rfl := Except.ok.inj h
      rcases List.mem_append.mp htask with hmem | hmem
      · obtain ⟨callee, hcallee, heq⟩ := List.mem_map.mp hmem
        rw [← heq]
        exact .inr (gram_of_mem_callees hcallee)
      · cases List.mem_singleton.mp hmem
  · exact .inl rfl

/-- A path has made a call of the starting method `count` calls ago, the last one included, or is
about to make one. The call is made at an index. -/
inductive HeadedAt : Task → Nat → Nat → Prop where
  | next {walk : Walk} {target : CallTarget} {next : Option Nat} : walk.callers = [] →
      HeadedAt (.emit walk target next) 0 walk.index
  | made {task : Task} {count : Nat} {item : GramItem} :
      task.walk.gram.items[count]? = some item → item.frame.callers = [] →
      HeadedAt task (count + 1) item.frame.point.index

/-- A call that is in the gram behind an arrival has been in it before. -/
theorem headedAt_of_mem_expand (h : search.expand walk = .ok tasks) (htask : task ∈ tasks)
    (hheaded : HeadedAt task (count + 1) index) (hcount : count < search.options.size) :
    HeadedAt (.arrive walk) (count + 1) index := by
  cases hheaded with
  | @made _ _ item hitem hcallers =>
    refine .made ?_ hcallers
    rcases gram_of_mem_expand h htask with hgram | hgram
    · rwa [hgram] at hitem
    · rwa [hgram, Gram.items_keepLast, List.getElem?_take_of_lt hcount] at hitem

/-- A call that is in the gram behind a call has been in it before, or it is the call itself. -/
theorem headedAt_of_called {dest : Nat} {next : Option Nat}
    (hheaded : HeadedAt (.arrive { walk with index := dest, gram := called walk target })
      count index) :
    ∃ before, count = before + 1 ∧ HeadedAt (.emit walk target next) before index := by
  cases hheaded with
  | @made _ count item hitem hcallers =>
    refine ⟨count, rfl, ?_⟩
    cases count with
    | zero =>
      obtain rfl := Option.some.inj hitem
      exact .next (List.map_eq_nil_iff.mp hcallers)
    | succ count => exact .made hitem hcallers

/-- The first call of an n-gram that a path completes. -/
theorem headedAt_of_window {next : Option Nat} (hsize : 0 < search.options.size)
    (hwindow : (called walk target).window? search.options.size = some ngram)
    (hcallers : ngram.head.frame.callers = []) :
    HeadedAt (.emit walk target next) (search.options.size - 1)
      ngram.head.frame.point.index := by
  obtain ⟨hle, htoList⟩ := Gram.window?_eq_some_iff.mp hwindow
  have hhead : (called walk target).items[search.options.size - 1]? = some ngram.head := by
    have hfirst := congrArg List.head? htoList
    rw [List.head?_reverse, List.getLast?_eq_getElem?, List.length_take, Nat.min_eq_left hle,
      List.getElem?_take_of_lt (Nat.sub_lt hsize Nat.one_pos)] at hfirst
    exact hfirst.symm
  have hmade : HeadedAt (.arrive { walk with index := 0, gram := called walk target })
      (search.options.size - 1 + 1) ngram.head.frame.point.index :=
    .made hhead hcallers
  obtain ⟨before, heq, hheaded⟩ := headedAt_of_called hmade
  rwa [Nat.add_right_cancel heq]

/-! ## Following a path from a later call -/

/-- The search for the n-grams that start at an index. -/
def startingAt (search : Search) (index : Nat) : Search :=
  { search with start := some index }

/-- For every call of the starting method in its gram that an n-gram can begin with, and for the
one that it is about to make, the search that starts there has a path to the same place that is held
back less and has made just the calls from there on. -/
def Accompanied (search : Search) (graph : MethodGraph) (task : Task) : Prop :=
  ∀ count index, count < search.options.size → HeadedAt task count index →
    graph.Reachable index ∧ ∃ seed,
      (search.startingAt index).Undisputed (search.opening graph index)
        (search.opening graph index) seed ∧
      Task.Freer (Gram.LastCalls count) seed task

/-- A frame without callers is one of the starting method. -/
theorem Stacked.method_eq_root {frame : Frame} (h : search.Stacked frame)
    (hcallers : frame.callers = []) : frame.point.method = search.root := by
  cases h with
  | root => rfl
  | call => cases hcallers

/-- A path without callers is in the starting method. -/
theorem Traced.at_root (h : search.Traced walk)
    (hroot : search.graphs.get? search.root = some graph) (hcallers : walk.callers = []) :
    walk.activation.method = search.root ∧ walk.activation.graph = graph := by
  have hmethod : walk.activation.method = search.root :=
    h.stacked.method_eq_root (by rw [Walk.frame, hcallers, List.map_nil])
  have hrunning := h.running
  rw [hmethod, hroot] at hrunning
  exact ⟨hmethod, (Option.some.inj hrunning).symm⟩

/-- The search that starts at a call of the starting method gets to the call if a path does. -/
theorem exists_seed_of_enter {entered : Walk} {node : Node}
    (hroot : search.graphs.get? search.root = some graph) (htraced : search.Traced walk)
    (hnode : walk.activation.graph.node? walk.index = some node)
    (hc : node.command = .call target) (henter : search.enter? walk = some entered)
    (hcallers : entered.callers = []) :
    ∃ seed, (search.startingAt entered.index).Undisputed (search.opening graph entered.index)
        (search.opening graph entered.index) seed ∧
      Task.Freer (Gram.LastCalls 0) seed (.emit entered target node.next) := by
  have hsame := entered_of_enter? henter
  rw [hsame.callers] at hcallers
  obtain ⟨hmethod, hgraph⟩ := htraced.at_root hroot hcallers
  have hfree : Walk.Freer (Gram.LastCalls 0)
      ⟨entered.index, ⟨search.root, graph, []⟩, [], search.options.budget, .empty⟩ walk := by
    refine ⟨hsame.index, ⟨hmethod.symm, hgraph.symm, fun _ hmark => absurd hmark List.not_mem_nil⟩,
      ?_, (Nat.le_add_right _ _).trans htraced.paid, rfl, Nat.zero_le _⟩
    rw [hcallers]
    exact .nil
  obtain ⟨entered', henter', hfreer⟩ := hfree.enter henter
  have hat : entered.activation.graph.node? entered.index = some node := by
    rw [hsame.graph, hsame.index, hnode]
  have hexpand : (search.startingAt entered.index).expand
      ⟨entered.index, ⟨search.root, graph, []⟩, [], search.options.budget, .empty⟩ =
        .ok (((search.startingAt entered.index).callees entered' target).map .arrive ++
          [.emit entered' target node.next]) := by
    have henterAt : (search.startingAt entered.index).enter?
        ⟨entered.index, ⟨search.root, graph, []⟩, [], search.options.budget, .empty⟩ =
          some entered' := henter'
    simp only [expand, hfree.node? hnode, henterAt, hc]
  refine ⟨.emit entered' target node.next, .next .start ?_ ?_, .emit hfreer hat hc⟩
  · exact continues_arrive_iff.mpr ⟨_, hexpand, List.mem_append_right _ List.mem_cons_self⟩
  · exact fun ngram finder hcompletes => absurd hcompletes not_completes_arrive

/-- An arrival and what follows it are accompanied from the same calls. -/
theorem Accompanied.expand (hroot : search.graphs.get? search.root = some graph)
    (hrooted : search.Rooted points (.arrive walk)) (h : search.Accompanied graph (.arrive walk))
    (hexpand : search.expand walk = .ok tasks) (htask : task ∈ tasks) :
    search.Accompanied graph task := by
  intro count index hcount hheaded
  cases count with
  | zero =>
    cases hheaded with
    | @next walk' target next hcallers =>
      obtain ⟨node, entered, hnode, henter, hgo⟩ := mem_expand hexpand htask
      rcases hgo with ⟨_, heq, _⟩ | ⟨target', hc, heq⟩
      · cases heq
      · obtain ⟨rfl, rfl, rfl⟩ := Task.emit.inj heq
        cases hrooted with
        | arrive hwalk =>
          have hsame := entered_of_enter? henter
          have hgraph := (hwalk.1.at_root hroot (hsame.callers.symm.trans hcallers)).2
          have hreach := hwalk.2.running.reachable
          rw [hgraph, ← hsame.index] at hreach
          exact ⟨hreach, exists_seed_of_enter hroot hwalk.1 hnode hc henter hcallers⟩
  | succ count =>
    obtain ⟨hreach, seed, hpath, hfreer⟩ :=
      h (count + 1) index hcount (headedAt_of_mem_expand hexpand htask hheaded (by omega))
    refine ⟨hreach, ?_⟩
    cases hfreer with
    | @arrive free _ hfree =>
      have horder : (search.startingAt index).GramOrder (Gram.LastCalls (count + 1)) :=
        lastCalls_order (Nat.succ_pos _) (Nat.le_of_lt hcount)
      obtain ⟨tasks', hexpand', seed', hmem, hfreer'⟩ := hfree.expand horder hexpand htask
      refine ⟨seed', hpath.next (continues_arrive_iff.mpr ⟨tasks', hexpand', hmem⟩) ?_, hfreer'⟩
      exact fun ngram finder hcompletes => absurd hcompletes not_completes_arrive

/-- A path that has not made enough calls for an n-gram has no window. -/
theorem window?_eq_none_of_lastCalls (h : Gram.LastCalls count free.gram bound.gram)
    (hcount : count + 1 < search.options.size) (target : CallTarget) :
    (called free target).window? search.options.size = none := by
  rw [Option.eq_none_iff_forall_ne_some]
  intro ngram hwindow
  have hle := (Gram.window?_eq_some_iff.mp hwindow).1
  rw [called, Gram.items_push, List.length_cons, h.length_eq] at hle
  omega

/-- A call and what follows it are accompanied from the same calls. -/
theorem Accompanied.emit {next : Option Nat} (hallow : search.options.allowRepetitive = true)
    (h : search.Accompanied graph (.emit walk target next))
    (hgo : search.Continues (.emit walk target next) task') :
    search.Accompanied graph task' := by
  obtain ⟨dest, hnext, rfl, -⟩ := continues_emit_iff.mp hgo
  rw [grown_of_allowRepetitive hallow]
  intro count index hcount hheaded
  obtain ⟨before, rfl, hheaded⟩ := headedAt_of_called hheaded
  obtain ⟨hreach, seed, hpath, hfreer⟩ := h before index (by omega) hheaded
  refine ⟨hreach, ?_⟩
  cases hfreer with
  | @emit free _ node _ hfree hnode hc =>
    have hnone : (called free target).window? (search.startingAt index).options.size = none :=
      window?_eq_none_of_lastCalls hfree.gram hcount target
    have hgoes : (search.startingAt index).Continues (.emit free target node.next)
        (.arrive { free with index := dest, gram := called free target }) := by
      have hallowAt : (search.startingAt index).options.allowRepetitive = true := hallow
      refine continues_emit_iff.mpr ⟨dest, hnext, ?_, fun ngram _ hwindow => ?_⟩
      · rw [grown_of_allowRepetitive hallowAt]
      · rw [hnone] at hwindow
        cases hwindow
    refine ⟨_, hpath.next hgoes fun ngram finder hcompletes => ?_,
      .arrive (hfree.goTo ⟨_, MethodGraph.step_call hnode hc hnext⟩
        (lastCalls_called hfree.gram hfree.frame_eq target))⟩
    obtain ⟨-, -, hwindow, -⟩ := completes_emit_iff.mp hcompletes
    rw [hnone] at hwindow
    cases hwindow

/-- All paths from the beginning of a search are accompanied. -/
theorem accompanied_of_reached {start : Nat} (hgraphs : search.Enterable points)
    (hallow : search.options.allowRepetitive = true)
    (hroot : search.graphs.get? search.root = some graph)
    (hstart : search.Rooted points (search.opening graph start))
    (hpath : ReflTransGen search.Continues (search.opening graph start) task) :
    search.Accompanied graph task := by
  induction hpath with
  | refl =>
    intro count index _ hheaded
    cases hheaded with
    | made hitem => cases hitem
  | @tail task task' hpath hgo ih =>
    cases task with
    | arrive walk =>
      obtain ⟨tasks, hexpand, hmem⟩ := continues_arrive_iff.mp hgo
      exact ih.expand hroot (hstart.continues hgraphs hpath) hexpand hmem
    | emit walk target next => exact ih.emit hallow hgo

/-- An n-gram that an accompanied path completes is completed from its first call on. -/
theorem Accompanied.completes (hsize : 0 < search.options.size)
    (hallow : search.options.allowRepetitive = true) (h : search.Accompanied graph task)
    (hcompletes : search.Completes task ngram) :
    graph.Reachable ngram.head.frame.point.index ∧ ∃ seed,
      (search.startingAt ngram.head.frame.point.index).Undisputed
        (search.opening graph ngram.head.frame.point.index)
        (search.opening graph ngram.head.frame.point.index) seed ∧
      (search.startingAt ngram.head.frame.point.index).Completes seed ngram := by
  cases task with
  | arrive walk => exact absurd hcompletes not_completes_arrive
  | emit walk target next =>
    obtain ⟨hnext, -, hwindow, hforeign⟩ := completes_emit_iff.mp hcompletes
    have hdepth := (isForeign_eq_false_iff.mp hforeign).1
    obtain ⟨hreach, seed, hpath, hfreer⟩ := h _ _ (Nat.sub_lt hsize Nat.one_pos)
      (headedAt_of_window hsize hwindow (List.length_eq_zero_iff.mp hdepth))
    refine ⟨hreach, seed, hpath, ?_⟩
    cases hfreer with
    | @emit free _ node _ hfree hnode hc =>
      have hcalled := lastCalls_called hfree.gram hfree.frame_eq target
      rw [Nat.sub_add_cancel hsize] at hcalled
      refine completes_emit_iff.mpr ⟨hnext, if_pos hallow, ?_, ?_⟩
      · obtain ⟨-, htoList⟩ := Gram.window?_eq_some_iff.mp hwindow
        refine Gram.window?_eq_some_iff.mpr ⟨Nat.le_of_eq hcalled.length_eq.symm, ?_⟩
        rw [htoList, hcalled.items_eq, List.take_take]
        simp [startingAt]
      · exact isForeign_eq_false_iff.mpr ⟨hdepth, fun index hindex _ => Option.some.inj hindex⟩

end Search

section Compiled

variable {graphs : GraphTable} {options : SearchOptions} {root : MethodKey} {graph : MethodGraph}

/-- The search from an index finds the n-grams of its undisputed paths. -/
theorem GraphTable.Compiled.exists_mem_ngramsFrom (hgraphs : graphs.Compiled) (policy : DigPolicy)
    (hsize : 0 < options.size) (hroot : graphs.get? root = some graph) {index : Nat}
    (hindex : graph.Reachable index) {task : Task} {ngram : Ngram}
    (hpath : Search.Undisputed ⟨graphs, policy, options, root, some index⟩
      (Search.opening ⟨graphs, policy, options, root, some index⟩ graph index)
      (Search.opening ⟨graphs, policy, options, root, some index⟩ graph index) task)
    (hcompletes : Search.Completes ⟨graphs, policy, options, root, some index⟩ task ngram) :
    ∃ seeded, ngramsFrom graphs policy options root [index] = .ok seeded ∧
      ngram ∈ seeded.toList := by
  obtain ⟨seeded, hseeded⟩ := hgraphs.exists_ngramsFromWithin policy hsize hroot
    (List.forall_mem_singleton.mpr hindex)
  refine ⟨seeded, hseeded _ (searchDepth_lt_depthLimit graphs options), ?_⟩
  have hrun := hseeded _ (Nat.lt_succ_self _)
  rw [ngramsFromWithin_eq hsize hroot] at hrun
  obtain ⟨mid, hmid, hend⟩ := foldlM_cons_eq_ok hrun
  obtain rfl : mid = seeded := Except.ok.inj hend
  rw [addNgramsFrom] at hmid
  split at hmid
  · cases hmid
  · have hrooted := Search.rooted_arrive ⟨graphs, policy, options, root, some index⟩ hroot
      (hgraphs root graph hroot).sound (Nat.lt_succ_of_le (size_le_pointCount hroot)) hindex
      (Nat.le_refl _)
    exact hpath.mem_explore hsize (hgraphs.enterable (some index)) hrooted hrooted
      (Search.freer_arrive _ graph index (Nat.le_refl _)) hmid hcompletes

/-- Every n-gram that the search from the start of a method finds is found by the search from its
first call, if repetitions are allowed. -/
theorem ngrams_seeded (hgraphs : graphs.Compiled) (policy : DigPolicy)
    (hsize : 0 < options.size) (hallow : options.allowRepetitive = true)
    (hroot : graphs.get? root = some graph) :
    ∃ found, ngrams graphs policy options root = .ok found ∧
      ∀ index, ∀ ngram ∈ found.toList, ngram.head.frame.point.index = index →
        ∃ seeded, ngramsFrom graphs policy options root [index] = .ok seeded ∧
          ngram ∈ seeded.toList := by
  obtain ⟨found, depth, hngrams, hrun⟩ :=
    @Search.exists_explore_opening ⟨graphs, policy, options, root, none⟩ graph hgraphs hsize hroot
      rfl
  refine ⟨found, hngrams, ?_⟩
  rintro index ngram hngram rfl
  -- The path that has found the n-gram is accompanied from the first call of the n-gram on.
  obtain ⟨last, hpath, hcompletes⟩ := Search.yields_of_mem_explore hrun hngram
  have hrooted := @Search.rooted_opening ⟨graphs, policy, options, root, none⟩ graph hgraphs hroot
    _ (Nat.le_refl _)
  have haccompanied := Search.accompanied_of_reached (hgraphs.enterable none) hallow hroot hrooted
    hpath
  obtain ⟨hreach, seed, hseed, hcompletesAt⟩ :=
    haccompanied.completes hsize hallow hcompletes
  exact hgraphs.exists_mem_ngramsFrom policy hsize hroot hreach hseed hcompletesAt

end Compiled

/-- The last call before a called method and the call in that method are found together from the
start of the calling method, and from the first of the two calls. -/
theorem ngrams_seeded_detour :
    detourProgram.Compiled ∧ 0 < { forkOptions with maxCallDepth := 1 }.size ∧
      { forkOptions with maxCallDepth := 1 }.allowRepetitive = true ∧
      detourProgram.get? loopMethod = some detourGraph ∧
      detourPair.head.frame.point.index = 3 ∧
      ∃ found seeded,
        ngrams detourProgram commonObjectMethods { forkOptions with maxCallDepth := 1 }
          loopMethod = .ok found ∧
        detourPair ∈ found.toList ∧
        ngramsFrom detourProgram commonObjectMethods { forkOptions with maxCallDepth := 1 }
          loopMethod [3] = .ok seeded ∧
        detourPair ∈ seeded.toList := by
  have hpair : (ngrams detourProgram commonObjectMethods { forkOptions with maxCallDepth := 1 }
      loopMethod).map (fun found => decide (detourPair ∈ found.toList)) = .ok true := by
    decide +kernel
  obtain ⟨found, hfound, hall⟩ := ngrams_seeded detourProgram_compiled commonObjectMethods
    (by decide : 0 < { forkOptions with maxCallDepth := 1 }.size) rfl
    detourProgram_get?_loopMethod
  rw [hfound] at hpair
  have hmem := of_decide_eq_true (Except.ok.inj hpair)
  obtain ⟨seeded, hseeded, hmemAt⟩ := hall 3 detourPair hmem rfl
  exact ⟨detourProgram_compiled, by decide, rfl, detourProgram_get?_loopMethod, rfl, found, seeded,
    hfound, hmem, hseeded, hmemAt⟩

end CallNgrams
