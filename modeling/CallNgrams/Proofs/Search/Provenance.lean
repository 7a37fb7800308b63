import CallNgrams.Proofs.Search.Gram
import CallNgrams.Proofs.Search.Termination

/-!
# Where the calls of n-grams are made

Every call of an n-gram is made at a node that calls its target. Its frame leads down to the method
that the search starts in: each caller calls the method above it, no signature runs twice, there are
no more callers than the budget pays for, and undigged methods are not entered. All this holds of
the frames of a path at every program point, and so of the calls in its gram.
-/

namespace CallNgrams

/-! ## Frames and their callers -/

/-- A node at a program point calls a target. -/
def GraphTable.CallsAt (graphs : GraphTable) (point : ProgramPoint) (target : CallTarget) : Prop :=
  ∃ graph node, graphs.get? point.method = some graph ∧ graph.node? point.index = some node ∧
    node.command = .call target

/-- The call at a program point can lead to a method. -/
def GraphTable.CanCall (graphs : GraphTable) (point : ProgramPoint) (method : MethodKey) : Prop :=
  ∃ target, graphs.CallsAt point target ∧ target.signature = method.signature ∧
    (target.owner = none ∨ target.owner = some method.owner)

namespace Frame

/-- The frame at a program point with the given callers, and the frames of these callers. -/
def stackFrom : ProgramPoint → List ProgramPoint → List Frame
  | point, [] => [⟨point, []⟩]
  | point, caller :: callers => ⟨point, caller :: callers⟩ :: stackFrom caller callers

/-- A frame and the frames of its callers, innermost first. -/
def stack (frame : Frame) : List Frame :=
  stackFrom frame.point frame.callers

variable {point caller : ProgramPoint} {callers : List ProgramPoint}

@[simp] theorem stack_nil : stack ⟨point, []⟩ = [⟨point, []⟩] :=
  rfl

@[simp] theorem stack_cons :
    stack ⟨point, caller :: callers⟩ = ⟨point, caller :: callers⟩ :: stack ⟨caller, callers⟩ :=
  rfl

/-- The frames of a call stack are at the program point and at the call sites of the callers. -/
theorem map_point_stack (point : ProgramPoint) (callers : List ProgramPoint) :
    (stack ⟨point, callers⟩).map Frame.point = point :: callers := by
  induction callers generalizing point with
  | nil => rfl
  | cons caller callers ih => rw [stack_cons, List.map_cons, ih]

/-- A call stack has one frame more than callers. -/
theorem length_stack (frame : Frame) : frame.stack.length = frame.depth + 1 := by
  rw [← List.length_map Frame.point, map_point_stack, List.length_cons, depth]

theorem head?_stack (frame : Frame) : frame.stack.head? = some frame := by
  obtain ⟨point, callers⟩ := frame
  cases callers <;> rfl

/-- The frames of callers are less deep. -/
theorem depth_le_of_mem_stack {frame outer : Frame} (h : outer ∈ frame.stack) :
    outer.depth ≤ frame.depth := by
  obtain ⟨point, callers⟩ := frame
  induction callers generalizing point with
  | nil =>
    obtain rfl := List.mem_singleton.mp h
    exact Nat.le_refl _
  | cons caller callers ih =>
    rcases List.mem_cons.mp h with rfl | h
    · exact Nat.le_refl _
    · exact (ih caller h).trans (Nat.le_succ _)

end Frame

namespace Search

variable {search : Search} {walk entered : Walk} {node : Node}

/-- A frame that a path of the search can be in: the starting method without callers, or a method
that the innermost of the callers can call, that is not undigged and whose signature does not run
already. -/
inductive Stacked (search : Search) : Frame → Prop where
  | root {index : Nat} : Stacked search ⟨⟨search.root, index⟩, []⟩
  | call {method : MethodKey} {index : Nat} {caller : ProgramPoint} {callers : List ProgramPoint} :
      Stacked search ⟨caller, callers⟩ → search.graphs.CanCall caller method →
      method.signature ∉ (caller :: callers).map (·.method.signature) →
      (search.options.useUndigged = true → search.policy.isUndigged method.signature = false) →
      Stacked search ⟨⟨method, index⟩, caller :: callers⟩

namespace Stacked

theorem goTo {method : MethodKey} {index : Nat} {callers : List ProgramPoint}
    (h : search.Stacked ⟨⟨method, index⟩, callers⟩) (dest : Nat) :
    search.Stacked ⟨⟨method, dest⟩, callers⟩ := by
  cases h with
  | root => exact .root
  | call hcaller hcan hfree hdug => exact .call hcaller hcan hfree hdug

/-- The caller of a frame is a frame that a path can be in, too. -/
theorem caller {point caller : ProgramPoint} {callers : List ProgramPoint}
    (h : search.Stacked ⟨point, caller :: callers⟩) : search.Stacked ⟨caller, callers⟩ := by
  cases h with
  | call hcaller => exact hcaller

end Stacked

end Search

/-- A frame leads down to the starting method of a search and keeps its rules: every caller calls
the method above it, no signature runs twice, each depth is the number of callers and within the
budget, and no method that is entered is undigged. -/
structure Frame.Proper (graphs : GraphTable) (policy : DigPolicy) (options : SearchOptions)
    (root : MethodKey) (frame : Frame) : Prop where
  bottom : ∀ outer ∈ frame.stack, outer.depth = 0 → outer.point.method = root
  linked : frame.stack.IsChain fun callee caller => graphs.CanCall caller.point callee.point.method
  distinct : (frame.stack.map fun outer => outer.point.method.signature).Nodup
  depth : ∀ outer ∈ frame.stack, outer.depth = outer.stack.length - 1 ∧
    outer.depth ≤ options.budget
  dug : options.useUndigged = true → ∀ outer ∈ frame.stack, 1 ≤ outer.depth →
    policy.isUndigged outer.point.method.signature = false

/-- A frame of a path with no more callers than the budget pays for is proper. -/
theorem Search.Stacked.proper {search : Search} {frame : Frame} (h : search.Stacked frame)
    (hdepth : frame.depth ≤ search.options.budget) :
    frame.Proper search.graphs search.policy search.options search.root := by
  induction h with
  | root =>
    refine ⟨?_, List.isChain_singleton _, List.nodup_singleton _, ?_, fun _ => ?_⟩
    · rintro outer hmem -
      obtain rfl := List.mem_singleton.mp hmem
      rfl
    · intro outer hmem
      obtain rfl := List.mem_singleton.mp hmem
      exact ⟨rfl, Nat.zero_le _⟩
    · intro outer hmem hdeep
      obtain rfl := List.mem_singleton.mp hmem
      exact absurd hdeep (Nat.not_succ_le_zero 0)
  | @call method index caller callers _ hcan hfree hdug ih =>
    have hcaller := ih ((Nat.le_succ _).trans hdepth)
    refine ⟨?_, ?_, ?_, ?_, fun huse => ?_⟩
    · intro outer hmem hzero
      rcases List.mem_cons.mp hmem with rfl | hmem
      · cases hzero
      · exact hcaller.bottom outer hmem hzero
    · refine hcaller.linked.cons fun outer hhead => ?_
      rw [Frame.head?_stack] at hhead
      obtain rfl := Option.some.inj hhead
      exact hcan
    · rw [Frame.stack_cons, List.map_cons, List.nodup_cons]
      refine ⟨?_, hcaller.distinct⟩
      rw [← Frame.map_point_stack, List.map_map] at hfree
      exact hfree
    · intro outer hmem
      exact ⟨by rw [Frame.length_stack, Nat.add_sub_cancel],
        (Frame.depth_le_of_mem_stack hmem).trans hdepth⟩
    · intro outer hmem hdeep
      rcases List.mem_cons.mp hmem with rfl | hmem
      · exact hdug huse
      · exact hcaller.dug huse outer hmem hdeep

/-! ## Frames along a path -/

namespace Search

variable {search : Search} {walk entered : Walk} {node : Node}

/-- A call that a path of the search can make. -/
structure Made (search : Search) (item : GramItem) : Prop where
  site : search.graphs.CallsAt item.frame.point item.target
  stacked : search.Stacked item.frame
  depth : item.frame.depth ≤ search.options.budget

/-- What a path knows of its frame and of the calls that it has made. -/
structure Traced (search : Search) (walk : Walk) : Prop where
  running : search.graphs.get? walk.activation.method = some walk.activation.graph
  waiting {caller : Suspended} : caller ∈ walk.callers →
    search.graphs.get? caller.activation.method = some caller.activation.graph
  stacked : search.Stacked walk.frame
  paid : walk.budget + walk.callers.length ≤ search.options.budget
  made {item : GramItem} : item ∈ walk.gram.items → search.Made item

/-- A path that has entered the program point of a node. -/
structure TracedAt (search : Search) (walk : Walk) (node : Node) : Prop where
  traced : search.Traced walk
  node : walk.activation.graph.node? walk.index = some node

theorem Traced.goTo (h : search.Traced walk) (dest : Nat) :
    search.Traced { walk with index := dest } :=
  ⟨h.running, h.waiting, h.stacked.goTo dest, h.paid, h.made⟩

/-- A path can forget calls. -/
theorem Traced.withGram (h : search.Traced walk) {gram : Gram}
    (hgram : ∀ item ∈ gram.items, search.Made item) : search.Traced { walk with gram := gram } :=
  ⟨h.running, h.waiting, h.stacked, h.paid, fun hmem => hgram _ hmem⟩

/-- Entering a program point keeps what a path knows of its frame and its calls. -/
theorem Traced.enter (h : search.Traced walk) (henter : search.enter? walk = some entered) :
    search.Traced entered := by
  rcases enter?_eq_some_iff.mp henter with ⟨-, rfl⟩ | ⟨-, -, -, rfl⟩
  · exact h
  · refine ⟨h.running, h.waiting, h.stacked, ?_, h.made⟩
    exact (Nat.add_le_add_right (Nat.sub_le _ _) _).trans h.paid

/-- The call that is about to be made is one of the program. -/
theorem TracedAt.callsAt (h : search.TracedAt walk node) {target : CallTarget}
    (hc : node.command = .call target) : search.graphs.CallsAt walk.point target :=
  ⟨walk.activation.graph, node, h.traced.running, h.node, hc⟩

/-- The call at the entered program point can be made, as all calls before it. -/
theorem TracedAt.made_called (h : search.TracedAt walk node) {target : CallTarget}
    (hc : node.command = .call target) {item : GramItem}
    (hitem : item ∈ (called walk target).items) : search.Made item := by
  rcases List.mem_cons.mp hitem with rfl | hitem
  · refine ⟨h.callsAt hc, h.traced.stacked, ?_⟩
    rw [Walk.frame, Frame.depth, List.length_map]
    exact (Nat.le_add_left _ _).trans h.traced.paid
  · exact h.traced.made hitem

theorem mem_called_of_mem_grown {target : CallTarget} {item : GramItem}
    (h : item ∈ (search.grown walk target).items) : item ∈ (called walk target).items := by
  rw [grown] at h
  cases hperiod : search.period? (called walk target) with
  | none =>
    rw [hperiod] at h
    exact h
  | some period =>
    rw [hperiod] at h
    exact List.mem_of_mem_drop h

/-- A signature that is not running is not on the call stack. -/
theorem not_mem_of_isRunning {signature : String} (h : walk.isRunning signature = false) :
    signature ∉ (walk.point :: walk.callers.map Suspended.point).map (·.method.signature) := by
  rw [Walk.isRunning, Bool.or_eq_false_iff, List.any_eq_false] at h
  simp only [List.map_cons, List.map_map, List.mem_cons, List.mem_map, not_or, not_exists, not_and]
  refine ⟨fun heq => ?_, fun caller hmem heq => h.2 caller hmem (beq_iff_eq.mpr heq)⟩
  exact absurd (beq_iff_eq.mpr heq.symm) (Bool.eq_false_iff.mp h.1)

/-- The frame of a method that a path enters. -/
theorem TracedAt.stacked_callee (h : search.TracedAt walk node) {target : CallTarget}
    {method : MethodKey} {graph : MethodGraph} (hc : node.command = .call target)
    (hdug : search.isDug target walk.gram = true)
    (hrunning : walk.isRunning target.signature = false)
    (hsignature : method.signature = target.signature)
    (howner : ∀ owner, target.owner = some owner → method.owner = owner) :
    search.Stacked (search.callee walk method graph).frame := by
  rw [← hsignature] at hrunning
  refine .call h.traced.stacked ⟨target, h.callsAt hc, hsignature.symm, ?_⟩
    (not_mem_of_isRunning hrunning) fun huse => ?_
  · cases htarget : target.owner with
    | none => exact .inl rfl
    | some owner => exact .inr (congrArg some (howner owner htarget).symm)
  · simp only [isDug, huse, Bool.true_and, Bool.and_eq_true, Bool.not_eq_true', ← hsignature]
      at hdug
    exact hdug.1.1

/-- Wherever a path goes on, it knows its frame and its calls again. -/
theorem TracedAt.lead (h : search.TracedAt walk node) {walk' : Walk}
    (hleads : search.Leads walk node walk') : search.Traced walk' := by
  cases hleads with
  | @back caller callers site dest _ hcallers _ _ =>
    obtain ⟨hrunning, hwaiting, hstacked, hpaid, hmade⟩ := h.traced
    rw [hcallers] at hpaid
    rw [Walk.frame, hcallers] at hstacked
    simp only [hcallers] at hwaiting
    refine ⟨hwaiting List.mem_cons_self, fun hmem => hwaiting (List.mem_cons_of_mem _ hmem),
      hstacked.caller.goTo dest, ?_, hmade⟩
    exact (Nat.add_le_add_left (Nat.le_succ _) _).trans hpaid
  | jump => exact h.traced.goTo _
  | decline => exact h.traced.goTo _
  | choose =>
    refine (h.traced.goTo _).withGram fun item hitem => h.traced.made ?_
    rw [Gram.items_keepLast] at hitem
    exact List.mem_of_mem_take hitem
  | @into target method graph hc hbudget hdug hrunning hsignature howner hget =>
    refine ⟨hget, fun {caller} hmem => ?_,
      h.stacked_callee hc hdug hrunning hsignature howner, ?_, fun {item} hitem => ?_⟩
    · rcases List.mem_cons.mp hmem with rfl | hmem
      · exact h.traced.running
      · exact h.traced.waiting hmem
    · have hpaid := h.traced.paid
      simp only [callee, List.length_cons]
      omega
    · simp only [callee, Gram.items_keepLast] at hitem
      exact h.traced.made (List.mem_of_mem_take hitem)
  | past hc hnext =>
    exact (h.traced.goTo _).withGram fun item hitem =>
      h.made_called hc (mem_called_of_mem_grown hitem)

/-- All paths from the starting method know their frames and their calls. -/
theorem traced_invariant (search : Search) :
    search.PathInvariant search.Traced search.TracedAt where
  enter hwalk hnode henter := by
    refine ⟨hwalk.enter henter, ?_⟩
    rw [(entered_of_enter? henter).graph, (entered_of_enter? henter).index]
    exact hnode
  lead h hleads := h.lead hleads

/-- The path at the beginning of a search. -/
theorem traced_start {graph : MethodGraph} (hroot : search.graphs.get? search.root = some graph)
    (index : Nat) :
    search.Traced ⟨index, ⟨search.root, graph, []⟩, [], search.options.budget, .empty⟩ :=
  ⟨hroot, fun hmem => absurd hmem List.not_mem_nil, .root, Nat.le_refl _,
    fun hmem => absurd hmem List.not_mem_nil⟩

end Search

/-! ## Stored n-grams -/

/-- An n-gram has the given number of calls and starts in the starting method, and each of its calls
is made at a node that calls its target, on a proper call stack. -/
structure Ngram.Provenance (graphs : GraphTable) (policy : DigPolicy) (options : SearchOptions)
    (root : MethodKey) (ngram : Ngram) : Prop where
  size : ngram.toList.length = options.size
  head : ngram.head.frame.depth = 0 ∧ ngram.head.frame.callers = [] ∧
    ngram.head.frame.point.method = root
  site : ∀ item ∈ ngram.toList, graphs.CallsAt item.frame.point item.target
  proper : ∀ item ∈ ngram.toList, item.frame.Proper graphs policy options root

/-- The window of such a path has the provenance. -/
theorem Search.Windowed.provenance {search : Search} {ngram : Ngram}
    (h : search.Windowed search.TracedAt ngram) :
    ngram.Provenance search.graphs search.policy search.options search.root := by
  obtain ⟨walk, node, target, dest, htraced, hc, -, -, hwindow, hforeign⟩ := h
  have hmade : ∀ item ∈ ngram.toList, search.Made item := by
    intro item hitem
    rw [(Gram.window?_eq_some_iff.mp hwindow).2, List.mem_reverse] at hitem
    exact htraced.made_called hc (List.mem_of_mem_take hitem)
  have hproper : ∀ item ∈ ngram.toList,
      item.frame.Proper search.graphs search.policy search.options search.root :=
    fun item hitem => (hmade item hitem).stacked.proper (hmade item hitem).depth
  have hdepth := (isForeign_eq_false_iff.mp hforeign).1
  refine ⟨Gram.length_of_window? hwindow, ⟨hdepth, List.length_eq_zero_iff.mp hdepth, ?_⟩,
    fun item hitem => (hmade item hitem).site, hproper⟩
  refine (hproper ngram.head List.mem_cons_self).bottom _ ?_ hdepth
  exact List.mem_of_mem_head? (Frame.head?_stack _)

section Compiled

variable {graphs : GraphTable} {policy : DigPolicy} {options : SearchOptions} {root : MethodKey}
  {graph : MethodGraph} {depth : Nat} {found found' : NgramSet}

/-- An n-gram of a search that starts at an index starts there. -/
theorem Search.Windowed.index {search : Search} {ngram : Ngram} {index : Nat}
    (h : search.Windowed search.TracedAt ngram) (hstart : search.start = some index) :
    ngram.head.frame.point.index = index := by
  have hhead := h.provenance.head.2.2
  obtain ⟨-, -, -, -, -, -, -, -, -, hforeign⟩ := h
  exact (isForeign_eq_false_iff.mp hforeign).2 index hstart hhead

theorem windowed_of_exploreFrom (search : Search) {index : Nat} {ngram : Ngram}
    (hroot : search.graphs.get? search.root = some graph)
    (h : search.exploreFrom depth graph index found = .ok found')
    (hngram : ngram ∈ found'.toList) :
    ngram ∈ found.toList ∨ search.Windowed search.TracedAt ngram :=
  search.traced_invariant.explore (.arrive (Search.traced_start hroot index)) h hngram

/-- The search from one index adds n-grams with the provenance whose first call is made there. -/
theorem provenance_of_addNgramsFrom (hroot : graphs.get? root = some graph) {index : Nat}
    (h : addNgramsFrom depth graphs policy options root graph found index = .ok found')
    {ngram : Ngram} (hngram : ngram ∈ found'.toList) :
    ngram ∈ found.toList ∨ ngram.Provenance graphs policy options root ∧
      ngram.head.frame.point.index = index := by
  rw [addNgramsFrom] at h
  split at h
  case h_1 => cases h
  case h_2 =>
    rcases windowed_of_exploreFrom ⟨graphs, policy, options, root, some index⟩ hroot h hngram
      with hold | hwindow
    · exact .inl hold
    · exact .inr ⟨hwindow.provenance, hwindow.index rfl⟩

/-- Every n-gram of a search from the start of a method has the provenance. -/
theorem provenance_of_ngrams (h : ngrams graphs policy options root = .ok found) :
    ∀ ngram ∈ found.toList, ngram.Provenance graphs policy options root := by
  obtain ⟨graph, hgraph, hrun⟩ := exists_of_bind_eq_ok h
  intro ngram hngram
  rcases windowed_of_exploreFrom ⟨graphs, policy, options, root, none⟩
    (get?_of_startingGraph hgraph).2 hrun hngram with hnone | hwindow
  · exact absurd hnone NgramSet.not_mem_empty
  · exact hwindow.provenance

/-- So has every n-gram of a search from some indices, and it starts at one of them. -/
theorem provenance_of_ngramsFrom {indices : List Nat}
    (h : ngramsFrom graphs policy options root indices = .ok found) :
    ∀ ngram ∈ found.toList, ngram.Provenance graphs policy options root ∧
      ngram.head.frame.point.index ∈ indices := by
  obtain ⟨graph, hgraph, hrun⟩ := exists_of_bind_eq_ok h
  refine foldlM_keeps (P := fun set => ∀ ngram ∈ set.toList,
    ngram.Provenance graphs policy options root ∧ ngram.head.frame.point.index ∈ indices)
    ?_ (fun ngram hnone => absurd hnone NgramSet.not_mem_empty) hrun
  intro index hindex set set' hset hadd ngram hngram
  rcases provenance_of_addNgramsFrom (get?_of_startingGraph hgraph).2 hadd hngram
    with hold | ⟨hprovenance, hhead⟩
  · exact hset ngram hold
  · exact ⟨hprovenance, hhead ▸ hindex⟩

/-- Every n-gram that a search of a compiled program stores has the required size, starts in the
starting method, at one of the given indices if there are any, and consists of calls that are made
where a node calls their target, on a proper call stack. -/
theorem ngrams_provenance (hgraphs : graphs.Compiled) (policy : DigPolicy)
    (hsize : 0 < options.size) (hroot : graphs.get? root = some graph) :
    (∃ found, ngrams graphs policy options root = .ok found ∧
        ∀ ngram ∈ found.toList, ngram.Provenance graphs policy options root) ∧
      ∀ indices found, ngramsFrom graphs policy options root indices = .ok found →
        ∀ ngram ∈ found.toList, ngram.Provenance graphs policy options root ∧
          ngram.head.frame.point.index ∈ indices := by
  constructor
  · obtain ⟨found, hfound⟩ := hgraphs.exists_ngramsWithin policy hsize hroot
    have hrun := hfound _ (searchDepth_lt_depthLimit graphs options)
    exact ⟨found, hrun, provenance_of_ngrams hrun⟩
  · intro indices found hrun
    exact provenance_of_ngramsFrom hrun

end Compiled

/-- The loop is searched without entering undigged methods: the searches from its start and from its
first call both find a pair whose second call is made one method deeper. -/
theorem ngrams_provenance_loop :
    loopProgram.Compiled ∧ 0 < loopOptions.size ∧
      loopProgram.get? loopMethod = some loopGraph ∧
      (∃ found, ngrams loopProgram commonObjectMethods { loopOptions with useUndigged := true }
          loopMethod = .ok found ∧ loopPair ∈ found.toList) ∧
      (∃ found, ngramsFrom loopProgram commonObjectMethods
          { loopOptions with useUndigged := true } loopMethod [0] = .ok found ∧
        loopPair ∈ found.toList) ∧
      loopPair.Provenance loopProgram commonObjectMethods
        { loopOptions with useUndigged := true } loopMethod := by
  have hlist : (ngrams loopProgram commonObjectMethods { loopOptions with useUndigged := true }
      loopMethod).map (fun found => decide (loopPair ∈ found.toList)) = .ok true := by
    decide +kernel
  have hlistFrom : (ngramsFrom loopProgram commonObjectMethods
      { loopOptions with useUndigged := true } loopMethod [0]).map
        (fun found => decide (loopPair ∈ found.toList)) = .ok true := by
    decide +kernel
  obtain ⟨found, hfound, hmem⟩ := exists_of_map_eq_ok hlist
  obtain ⟨found', hfound', hmem'⟩ := exists_of_map_eq_ok hlistFrom
  have hall := (ngrams_provenance loopProgram_compiled commonObjectMethods
    (by decide : 0 < { loopOptions with useUndigged := true }.size)
    loopProgram_get?_loopMethod).2 [0] found' hfound'
  exact ⟨loopProgram_compiled, by decide, loopProgram_get?_loopMethod,
    ⟨found, hfound, of_decide_eq_true hmem⟩, ⟨found', hfound', of_decide_eq_true hmem'⟩,
    (hall loopPair (of_decide_eq_true hmem')).1⟩

end CallNgrams
