import Mathlib.Data.List.Forall2
import CallNgrams.Proofs.Search.Gram
import CallNgrams.Proofs.Search.Termination

/-!
# N-grams are windows of runs

A run of a program starts at the start of a method and keeps a stack of activations. At a call it
either steps over it and emits the call with the call sites that it is made from, or enters a method
that the call can lead to, and a return of such a method goes on behind the call. A run is recorded
by what happens in it: merge points that activations enter, methods that are entered, and calls that
are emitted. Every n-gram that a search finds is what some run has emitted last, and in that run no
activation enters a merge point twice and what is paid for fits into the budget.
-/

namespace CallNgrams

/-! ## Runs of a program -/

/-- An activation with its number and the program point that it is at or waits at. -/
structure Live where
  number : Nat
  point : ProgramPoint

/-- The running activation and those that wait for it, innermost first. -/
structure Configuration where
  running : Live
  waiting : List Live

namespace Configuration

/-- A configuration without callers, at an index of a method. -/
def initial (method : MethodKey) (index : Nat) : Configuration :=
  ⟨⟨0, ⟨method, index⟩⟩, []⟩

/-- The running activation at another index of its method. -/
def goTo (config : Configuration) (index : Nat) : Configuration :=
  { config with running := ⟨config.running.number, ⟨config.running.point.method, index⟩⟩ }

/-- The program point that is visited, with the call sites of the callers. -/
def frame (config : Configuration) : Frame :=
  ⟨config.running.point, config.waiting.map Live.point⟩

end Configuration

/-- What happens in a run. -/
inductive Event where
  /-- An activation enters a merge point, with so many callers waiting. -/
  | merge (activation depth index : Nat)
  /-- A method is entered by a call. -/
  | enter (method : MethodKey)
  /-- A call is stepped over. -/
  | emit (item : GramItem)

namespace Event

/-- The activation and the merge point that it enters. -/
def mark? : Event → Option (Nat × Nat)
  | .merge activation _ index => some (activation, index)
  | _ => none

/-- The call that is emitted. -/
def item? : Event → Option GramItem
  | .emit item => some item
  | _ => none

/-- Whether a method is entered. -/
def isEnter : Event → Bool
  | .enter _ => true
  | _ => false

/-- Whether an event is paid from the budget: entering a method is, and so is entering a merge point
with a caller waiting, or with none if the surface counts. -/
def isPaid (surface : Bool) : Event → Bool
  | .merge _ depth _ => surface || depth != 0
  | .enter _ => true
  | .emit _ => false

end Event

/-- The activations with the merge points that they enter, in the order of the run. -/
def marksIn (events : List Event) : List (Nat × Nat) :=
  events.filterMap Event.mark?

/-- The calls that a run emits. -/
def callsIn (events : List Event) : List GramItem :=
  events.filterMap Event.item?

/-- The number of activations, the first one included; the next one gets it as its number. -/
def activationsIn (events : List Event) : Nat :=
  events.countP Event.isEnter + 1

/-- What a run pays from its budget. -/
def spentIn (surface : Bool) (events : List Event) : Nat :=
  events.countP (Event.isPaid surface)

/-- What happens when the running activation gets to the program point that it is at. -/
def MethodGraph.arrival (graph : MethodGraph) (config : Configuration) : List Event :=
  if graph.isMergePoint config.running.point.index then
    [.merge config.running.number config.waiting.length config.running.point.index]
  else []

/-- How a run goes on from a program point of a graph, where a new activation gets the given
number. -/
inductive Configuration.Moves (graphs : GraphTable) (graph : MethodGraph) (number : Nat)
    (config : Configuration) : List Event → Configuration → Prop where
  /-- Control goes to another program point without a call. -/
  | within {dest : Nat} : graph.Step config.running.point.index none dest →
      Moves graphs graph number config [] (config.goTo dest)
  /-- A call is emitted and control goes on behind it. -/
  | past {site : CallSite} {dest : Nat} :
      graph.Step config.running.point.index (some site) dest →
      Moves graphs graph number config [.emit ⟨site.target, config.frame⟩] (config.goTo dest)
  /-- A method that the call can lead to is entered. -/
  | into {node : Node} {target : CallTarget} {method : MethodKey} {callee : MethodGraph} :
      graph.node? config.running.point.index = some node → node.command = .call target →
      method.signature = target.signature →
      (∀ owner, target.owner = some owner → method.owner = owner) →
      graphs.get? method = some callee →
      Moves graphs graph number config [.enter method]
        ⟨⟨number, ⟨method, callee.start⟩⟩, config.running :: config.waiting⟩
  /-- A method that was entered by a call returns behind it. -/
  | back {node : Node} {caller : Live} {waiting : List Live} {callerGraph : MethodGraph}
      {site : Node} {dest : Nat} :
      graph.node? config.running.point.index = some node → node.command = .ret →
      config.waiting = caller :: waiting →
      graphs.get? caller.point.method = some callerGraph →
      callerGraph.node? caller.point.index = some site → site.next = some dest →
      Moves graphs graph number config [] (Configuration.goTo ⟨caller, waiting⟩ dest)

/-- A finite run of a program, with what has happened in it. -/
inductive Run (graphs : GraphTable) (start : Configuration) :
    List Event → Configuration → Prop where
  | nil : Run graphs start [] start
  | snoc {events moved : List Event} {config config' : Configuration} {graph : MethodGraph} :
      Run graphs start events config →
      graphs.get? config.running.point.method = some graph →
      config.Moves graphs graph (activationsIn events) moved config' →
      Run graphs start (events ++ graph.arrival config ++ moved) config'

/-! ## Bookkeeping of events -/

section Events

variable (events more : List Event)

@[simp] theorem marksIn_append : marksIn (events ++ more) = marksIn events ++ marksIn more :=
  List.filterMap_append

@[simp] theorem callsIn_append : callsIn (events ++ more) = callsIn events ++ callsIn more :=
  List.filterMap_append

@[simp] theorem spentIn_append (surface : Bool) :
    spentIn surface (events ++ more) = spentIn surface events + spentIn surface more :=
  List.countP_append

@[simp] theorem marksIn_merge (activation depth index : Nat) :
    marksIn [.merge activation depth index] = [(activation, index)] := rfl

@[simp] theorem marksIn_enter (method : MethodKey) : marksIn [.enter method] = [] := rfl

@[simp] theorem marksIn_emit (item : GramItem) : marksIn [.emit item] = [] := rfl

@[simp] theorem callsIn_merge (activation depth index : Nat) :
    callsIn [.merge activation depth index] = [] := rfl

@[simp] theorem callsIn_enter (method : MethodKey) : callsIn [.enter method] = [] := rfl

@[simp] theorem callsIn_emit (item : GramItem) : callsIn [.emit item] = [item] := rfl

@[simp] theorem activationsIn_merge (activation depth index : Nat) :
    activationsIn (events ++ [.merge activation depth index]) = activationsIn events := by
  simp [activationsIn, Event.isEnter]

@[simp] theorem activationsIn_enter (method : MethodKey) :
    activationsIn (events ++ [.enter method]) = activationsIn events + 1 := by
  simp [activationsIn, Event.isEnter]

@[simp] theorem activationsIn_emit (item : GramItem) :
    activationsIn (events ++ [.emit item]) = activationsIn events := by
  simp [activationsIn, Event.isEnter]

end Events

/-! ## Paths of the search follow runs -/

/-- A live activation of a run is at the same program point of the same method as an activation of
the search, and the merge points that it has entered are marked there. -/
structure Live.Tracks (graphs : GraphTable) (events : List Event) (live : Live)
    (activation : Activation) (index : Nat) : Prop where
  point : live.point = ⟨activation.method, index⟩
  graph : graphs.get? activation.method = some activation.graph
  marks {i : Nat} : (live.number, i) ∈ marksIn events → i ∈ activation.marks

/-- The events of a run keep the rules of the search, and its configuration is that of a path. -/
structure Search.Follows (search : Search) (events : List Event) (config : Configuration)
    (walk : Walk) : Prop where
  running : config.running.Tracks search.graphs events walk.activation walk.index
  waiting : List.Forall₂ (fun live caller =>
    live.Tracks search.graphs events caller.activation caller.site) config.waiting walk.callers
  numbers_nodup : ((config.running :: config.waiting).map Live.number).Nodup
  numbers_lt {live : Live} : live ∈ config.running :: config.waiting →
    live.number < activationsIn events
  marks_lt {mark : Nat × Nat} : mark ∈ marksIn events → mark.1 < activationsIn events
  marks_nodup : (marksIn events).Nodup
  spent_le : spentIn search.options.countSurface events + walk.budget ≤ search.options.budget
  gram : walk.gram.items <+: (callsIn events).reverse

namespace Live.Tracks

variable {graphs : GraphTable} {events : List Event} {live : Live} {activation : Activation}
  {index : Nat}

/-- Events in which no activation enters a merge point change nothing. -/
theorem append (h : live.Tracks graphs events activation index) {more : List Event}
    (hmore : marksIn more = []) : live.Tracks graphs (events ++ more) activation index := by
  refine ⟨h.point, h.graph, fun hmark => h.marks ?_⟩
  rwa [marksIn_append, hmore, List.append_nil] at hmark

/-- The live activation runs the method whose graph the search is in. -/
theorem method (h : live.Tracks graphs events activation index) :
    graphs.get? live.point.method = some activation.graph := by
  rw [h.point]
  exact h.graph

/-- An activation that enters a merge point has it marked. -/
theorem mark (h : live.Tracks graphs events activation index) (depth point : Nat) :
    live.Tracks graphs (events ++ [.merge live.number depth point])
      { activation with marks := point :: activation.marks } index := by
  refine ⟨h.point, h.graph, fun {i} hi => ?_⟩
  rw [marksIn_append, marksIn_merge, List.mem_append, List.mem_singleton] at hi
  rcases hi with hi | hi
  · exact List.mem_cons_of_mem _ (h.marks hi)
  · obtain rfl : i = point := (Prod.mk.inj hi).2
    exact List.mem_cons_self

/-- A merge point that another activation enters changes nothing. -/
theorem mark_other (h : live.Tracks graphs events activation index) {number : Nat}
    (hne : live.number ≠ number) (depth point : Nat) :
    live.Tracks graphs (events ++ [.merge number depth point]) activation index := by
  refine ⟨h.point, h.graph, fun {i} hi => ?_⟩
  rw [marksIn_append, marksIn_merge, List.mem_append, List.mem_singleton] at hi
  rcases hi with hi | hi
  · exact h.marks hi
  · exact absurd (Prod.mk.inj hi).1 hne

end Live.Tracks

namespace Search

variable {search : Search} {events moved : List Event} {config : Configuration}
  {walk entered : Walk} {node : Node}

namespace Follows

/-- The run is at the index of the path. -/
theorem index_eq (h : search.Follows events config walk) :
    config.running.point.index = walk.index := by
  rw [h.running.point]

/-- As many activations wait in the run as callers of the path. -/
theorem length_waiting (h : search.Follows events config walk) :
    config.waiting.length = walk.callers.length :=
  h.waiting.length_eq

/-- The run and the path have the same frame. -/
theorem frame_eq (h : search.Follows events config walk) : config.frame = walk.frame := by
  have hcallers : config.waiting.map Live.point = walk.callers.map Suspended.point := by
    rw [← List.forall₂_eq_eq_eq, List.forall₂_map_left_iff, List.forall₂_map_right_iff]
    exact h.waiting.imp fun live caller htracks => htracks.point
  rw [Configuration.frame, Walk.frame, hcallers, h.running.point]
  rfl

/-- A run pays the same for a merge point as the search. -/
theorem spentIn_merge (h : search.Follows events config walk) (number index : Nat) :
    spentIn search.options.countSurface [.merge number config.waiting.length index] =
      search.toll walk := by
  rw [spentIn, toll, List.countP_singleton, Event.isPaid, h.length_waiting]
  cases walk.callers <;> simp

/-- Entering a program point is recorded. -/
theorem enter (h : search.Follows events config walk)
    (henter : search.enter? walk = some entered) :
    search.Follows (events ++ walk.activation.graph.arrival config) config entered := by
  rcases enter?_eq_some_iff.mp henter with ⟨hpoint, rfl⟩ | ⟨hpoint, hmark, htoll, rfl⟩
  · rw [MethodGraph.arrival, h.index_eq, hpoint]
    simpa using h
  · rw [MethodGraph.arrival, h.index_eq, hpoint, if_pos rfl]
    constructor
    case running => exact h.running.mark _ _
    case waiting =>
      -- The other live activations have other numbers, so the new mark is none of theirs.
      have hnumber : ∀ live ∈ config.waiting, live.number ≠ config.running.number :=
        fun live hmem hsame =>
          (List.nodup_cons.mp h.numbers_nodup).1 (hsame ▸ List.mem_map_of_mem hmem)
      exact ((List.forall₂_and_left _ _).mpr ⟨hnumber, h.waiting⟩).imp
        fun live caller htracks => htracks.2.mark_other htracks.1 _ _
    case numbers_nodup => exact h.numbers_nodup
    case numbers_lt =>
      rw [activationsIn_merge]
      exact h.numbers_lt
    case marks_lt =>
      intro mark hmem
      rw [activationsIn_merge]
      rw [marksIn_append, marksIn_merge, List.mem_append, List.mem_singleton] at hmem
      rcases hmem with hmem | rfl
      · exact h.marks_lt hmem
      · exact h.numbers_lt List.mem_cons_self
    case marks_nodup =>
      rw [marksIn_append, marksIn_merge, ← List.concat_eq_append]
      exact h.marks_nodup.concat fun hmem => hmark (h.running.marks hmem)
    case spent_le =>
      have hle := h.spent_le
      have hbudget : (search.marked walk).budget = walk.budget - search.toll walk := rfl
      rw [spentIn_append, h.spentIn_merge, hbudget]
      omega
    case gram =>
      rw [callsIn_append, callsIn_merge, List.append_nil]
      exact h.gram

/-- Control goes on in the running activation, and calls that are too old may be forgotten. -/
theorem goTo (h : search.Follows events config walk) (dest : Nat) {gram : Gram}
    (hgram : gram.items <+: walk.gram.items) :
    search.Follows events (config.goTo dest) { walk with index := dest, gram := gram } where
  running := by
    refine ⟨?_, h.running.graph, h.running.marks⟩
    rw [Configuration.goTo, h.running.point]
  waiting := h.waiting
  numbers_nodup := h.numbers_nodup
  numbers_lt := by
    intro live hmem
    have hlt : config.running.number < activationsIn events := h.numbers_lt List.mem_cons_self
    rcases List.mem_cons.mp hmem with rfl | hmem
    · exact hlt
    · exact h.numbers_lt (List.mem_cons_of_mem _ hmem)
  marks_lt := h.marks_lt
  marks_nodup := h.marks_nodup
  spent_le := h.spent_le
  gram := hgram.trans h.gram

/-- A call is emitted. -/
theorem emit (h : search.Follows events config walk) (target : CallTarget) :
    search.Follows (events ++ [.emit ⟨target, config.frame⟩]) config
      { walk with gram := called walk target } where
  running := h.running.append rfl
  waiting := h.waiting.imp fun live caller htracks => htracks.append rfl
  numbers_nodup := h.numbers_nodup
  numbers_lt hmem := by
    rw [activationsIn_emit]
    exact h.numbers_lt hmem
  marks_lt hmem := by
    rw [marksIn_append, marksIn_emit, List.append_nil] at hmem
    rw [activationsIn_emit]
    exact h.marks_lt hmem
  marks_nodup := by
    rw [marksIn_append, marksIn_emit, List.append_nil]
    exact h.marks_nodup
  spent_le := by
    rw [spentIn_append]
    exact h.spent_le
  gram := by
    rw [callsIn_append, callsIn_emit, List.reverse_append, List.reverse_singleton, h.frame_eq]
    exact List.cons_prefix_cons.mpr ⟨rfl, h.gram⟩

/-- A method is entered by a call, with a new number and without marks. -/
theorem into (h : search.Follows events config walk) (hbudget : 0 < walk.budget)
    {method : MethodKey} {graph : MethodGraph} (hget : search.graphs.get? method = some graph) :
    search.Follows (events ++ [.enter method])
      ⟨⟨activationsIn events, ⟨method, graph.start⟩⟩, config.running :: config.waiting⟩
      (search.callee walk method graph) where
  running := by
    refine ⟨rfl, hget, fun {i} hi => ?_⟩
    rw [marksIn_append, marksIn_enter, List.append_nil] at hi
    exact absurd (h.marks_lt hi) (Nat.lt_irrefl _)
  waiting := .cons (h.running.append rfl) (h.waiting.imp fun _ _ htracks => htracks.append rfl)
  numbers_nodup := by
    rw [List.map_cons, List.nodup_cons]
    refine ⟨fun hmem => ?_, h.numbers_nodup⟩
    obtain ⟨live, hlive, hnumber⟩ := List.mem_map.mp hmem
    have hlt := h.numbers_lt hlive
    rw [hnumber] at hlt
    exact absurd hlt (Nat.lt_irrefl _)
  numbers_lt := by
    intro live hmem
    rw [activationsIn_enter]
    rcases List.mem_cons.mp hmem with rfl | hmem
    · exact Nat.lt_succ_self _
    · exact Nat.lt_succ_of_lt (h.numbers_lt hmem)
  marks_lt hmem := by
    rw [marksIn_append, marksIn_enter, List.append_nil] at hmem
    rw [activationsIn_enter]
    exact Nat.lt_succ_of_lt (h.marks_lt hmem)
  marks_nodup := by
    rw [marksIn_append, marksIn_enter, List.append_nil]
    exact h.marks_nodup
  spent_le := by
    have hle := h.spent_le
    have hspent : spentIn search.options.countSurface [.enter method] = 1 := rfl
    have hcallee : (search.callee walk method graph).budget = walk.budget - 1 := rfl
    rw [spentIn_append, hspent, hcallee]
    omega
  gram := by
    have hgram : (search.callee walk method graph).gram.items =
        walk.gram.items.take search.options.size := Gram.items_keepLast _
    rw [callsIn_append, callsIn_enter, List.append_nil, hgram]
    exact (List.take_prefix _ _).trans h.gram

/-- A method that was entered by a call returns. -/
theorem back (h : search.Follows events config walk) {caller : Suspended}
    {callers : List Suspended} (hcallers : walk.callers = caller :: callers) (dest : Nat) :
    ∃ live waiting, config.waiting = live :: waiting ∧
      live.Tracks search.graphs events caller.activation caller.site ∧
      search.Follows events (Configuration.goTo ⟨live, waiting⟩ dest)
        ⟨dest, caller.activation, callers, walk.budget, walk.gram⟩ := by
  have hwaiting := h.waiting
  rw [hcallers] at hwaiting
  cases hwaiting' : config.waiting with
  | nil =>
    rw [hwaiting'] at hwaiting
    cases hwaiting
  | cons live waiting =>
    rw [hwaiting'] at hwaiting
    obtain ⟨hlive, hrest⟩ := List.forall₂_cons.mp hwaiting
    have hnodup := h.numbers_nodup
    rw [hwaiting', List.map_cons, List.nodup_cons] at hnodup
    have hlt : ∀ {other}, other ∈ live :: waiting → other.number < activationsIn events := by
      intro other hmem
      exact h.numbers_lt (List.mem_cons_of_mem _ (hwaiting' ▸ hmem))
    have hback : search.Follows events ⟨live, waiting⟩
        ⟨caller.site, caller.activation, callers, walk.budget, walk.gram⟩ :=
      ⟨hlive, hrest, hnodup.2, hlt, h.marks_lt, h.marks_nodup, h.spent_le, h.gram⟩
    exact ⟨live, waiting, rfl, hlive, hback.goTo dest (List.prefix_refl _)⟩

end Follows

/-- No method is entered by arriving at a program point. -/
theorem activationsIn_arrival (graph : MethodGraph) (config : Configuration)
    (events : List Event) :
    activationsIn (events ++ graph.arrival config) = activationsIn events := by
  rw [MethodGraph.arrival]
  split
  · rw [activationsIn_merge]
  · rw [List.append_nil]

/-- Some run from a configuration leads to the configuration of a path that arrives. -/
def Arrives (search : Search) (start : Configuration) (walk : Walk) : Prop :=
  ∃ events config, Run search.graphs start events config ∧ search.Follows events config walk

/-- Some run from a configuration leads to the configuration of a path that has entered the program
point of a node. -/
def Visits (search : Search) (start : Configuration) (walk : Walk) (node : Node) : Prop :=
  walk.activation.graph.node? walk.index = some node ∧
    ∃ events config, Run search.graphs start events config ∧
      search.Follows (events ++ walk.activation.graph.arrival config) config walk

/-- What a visited node allows a run to do leads to an arrival. -/
theorem Visits.arrives {start config : Configuration} {walk' : Walk}
    (hrun : Run search.graphs start events config)
    (h : search.Follows (events ++ walk.activation.graph.arrival config) config walk)
    {config' : Configuration}
    (hmoves : config.Moves search.graphs walk.activation.graph
      (activationsIn (events ++ walk.activation.graph.arrival config)) moved config')
    (h' : search.Follows (events ++ walk.activation.graph.arrival config ++ moved) config' walk') :
    search.Arrives start walk' := by
  rw [activationsIn_arrival] at hmoves
  exact ⟨_, _, hrun.snoc h.running.method hmoves, h'⟩

/-- Every path of a search that allows repetitions follows a run. -/
theorem run_invariant (hallow : search.options.allowRepetitive = true) (start : Configuration) :
    search.PathInvariant (search.Arrives start) (search.Visits start) where
  enter := by
    rintro walk entered node ⟨events, config, hrun, h⟩ hnode henter
    have hsame := entered_of_enter? henter
    refine ⟨by rw [hsame.graph, hsame.index, hnode], events, config, hrun, ?_⟩
    rw [hsame.graph]
    exact h.enter henter
  lead := by
    rintro walk walk' node ⟨hnode, events, config, hrun, h⟩ hleads
    have hnode' : walk.activation.graph.node? config.running.point.index = some node := by
      rw [h.index_eq, hnode]
    have hwithin : ∀ {dest gram}, gram.items <+: walk.gram.items →
        walk.activation.graph.Step config.running.point.index none dest →
        search.Arrives start { walk with index := dest, gram := gram } := by
      intro dest gram hgram hstep
      refine Visits.arrives hrun h (.within hstep) ?_
      rw [List.append_nil]
      exact h.goTo dest hgram
    cases hleads with
    | jump hc => exact hwithin (List.prefix_refl _) (MethodGraph.step_jump hnode' hc)
    | decline hc hnext =>
      exact hwithin (List.prefix_refl _) (MethodGraph.step_decline hnode' hc hnext)
    | choose hc hdest =>
      refine hwithin ?_ (MethodGraph.step_choose hnode' hc hdest)
      rw [Gram.items_keepLast]
      exact List.take_prefix _ _
    | @past target dest hc hnext =>
      rw [grown_of_allowRepetitive hallow]
      exact Visits.arrives hrun h (.past (MethodGraph.step_call hnode' hc hnext))
        ((h.emit target).goTo dest (List.prefix_refl _))
    | into hc hbudget _ _ hsignature howner hget =>
      exact Visits.arrives hrun h (.into hnode' hc hsignature howner hget) (h.into hbudget hget)
    | @back caller callers site dest hc hcallers hsite hdest =>
      obtain ⟨live, waiting, hwaiting, hlive, hback⟩ := h.back hcallers dest
      refine Visits.arrives hrun h (.back hnode' hc hwaiting hlive.method ?_ hdest) ?_
      · rw [hlive.point]
        exact hsite
      · rw [List.append_nil]
        exact hback

/-- A search starts where a run starts. -/
theorem arrives_start (search : Search) {graph : MethodGraph}
    (hroot : search.graphs.get? search.root = some graph) (index : Nat) :
    search.Arrives (.initial search.root index)
      ⟨index, ⟨search.root, graph, []⟩, [], search.options.budget, .empty⟩ := by
  refine ⟨[], _, .nil, ?_⟩
  constructor
  case running => exact ⟨rfl, hroot, fun hmem => absurd hmem List.not_mem_nil⟩
  case waiting => exact .nil
  case numbers_nodup => exact List.nodup_singleton _
  case numbers_lt =>
    intro live hmem
    obtain rfl := List.mem_singleton.mp hmem
    exact Nat.zero_lt_one
  case marks_lt => exact fun hmem => absurd hmem List.not_mem_nil
  case marks_nodup => exact List.nodup_nil
  case spent_le => exact Nat.le_of_eq (Nat.zero_add _)
  case gram => exact List.nil_prefix

end Search

/-- A run of a program in which no activation enters a merge point twice and what is paid for fits
into a budget emits the calls of an n-gram last. -/
structure EndsWith (graphs : GraphTable) (start : Configuration) (options : SearchOptions)
    (ngram : Ngram) (events : List Event) (config : Configuration) : Prop where
  run : Run graphs start events config
  last : ngram.toList <:+ callsIn events
  size : ngram.toList.length = options.size
  once : (marksIn events).Nodup
  paid : spentIn options.countSurface events ≤ options.budget

/-- The window of a path is emitted last by the run that goes with it. -/
theorem Search.Windowed.exists_run {search : Search} {start : Configuration} {ngram : Ngram}
    (h : search.Windowed (search.Visits start) ngram) :
    ∃ events config, EndsWith search.graphs start search.options ngram events config := by
  obtain ⟨walk, node, target, dest, ⟨hnode, events, config, hrun, h⟩, hc, hnext, -, hwindow, -⟩ := h
  have hemit := h.emit target
  rw [← h.index_eq] at hnode
  have hmoves : config.Moves search.graphs walk.activation.graph (activationsIn events)
      [.emit ⟨target, config.frame⟩] (config.goTo dest) :=
    .past (MethodGraph.step_call hnode hc hnext)
  obtain ⟨hle, htoList⟩ := Gram.window?_eq_some_iff.mp hwindow
  refine ⟨_, _, hrun.snoc h.running.method hmoves, ?_, Gram.length_of_window? hwindow,
    hemit.marks_nodup, (Nat.le_add_right _ _).trans hemit.spent_le⟩
  rw [htoList, ← List.reverse_reverse (callsIn _)]
  exact List.reverse_suffix.mpr ((List.take_prefix _ _).trans hemit.gram)

/-- Every n-gram that a search with repetitions finds is what some run from the start of the method
emits last. In that run no activation enters a merge point twice, and the calls entered and the
merge points that count fit into the budget. -/
theorem ngrams_windows_of_runs {graphs : GraphTable} (hgraphs : graphs.Compiled)
    (policy : DigPolicy) {options : SearchOptions} (hsize : 0 < options.size)
    (hallow : options.allowRepetitive = true) {root : MethodKey} {graph : MethodGraph}
    (hroot : graphs.get? root = some graph) :
    ∃ found, ngrams graphs policy options root = .ok found ∧ ∀ ngram ∈ found.toList,
      ∃ events config,
        EndsWith graphs (.initial root graph.start) options ngram events config := by
  obtain ⟨found, hall⟩ := hgraphs.exists_ngramsWithin policy hsize hroot
  have hfound := hall _ (searchDepth_lt_depthLimit graphs options)
  refine ⟨found, hfound, fun ngram hngram => ?_⟩
  rw [ngramsWithin_eq hsize hroot] at hfound
  have hinv : Search.PathInvariant ⟨graphs, policy, options, root, none⟩ _ _ :=
    Search.run_invariant hallow (.initial root graph.start)
  rcases hinv.explore (.arrive (Search.arrives_start _ hroot _)) hfound hngram with hmem | hwindow
  · exact absurd hmem NgramSet.not_mem_empty
  · exact hwindow.exists_run

/-- The search from the start of the loop finds a pair of calls that are made in two methods, and
so some run emits it. -/
theorem ngrams_windows_of_runs_loop :
    loopProgram.Compiled ∧ 0 < loopOptions.size ∧ loopOptions.allowRepetitive = true ∧
      loopProgram.get? loopMethod = some loopGraph ∧
      ∃ found, ngrams loopProgram commonObjectMethods loopOptions loopMethod = .ok found ∧
        loopPair ∈ found.toList ∧ ∃ events config,
          EndsWith loopProgram (.initial loopMethod 0) loopOptions loopPair events config := by
  have hlist : (ngrams loopProgram commonObjectMethods loopOptions loopMethod).map
      (fun found => decide (loopPair ∈ found.toList)) = .ok true := by
    decide +kernel
  obtain ⟨found, hfound, hall⟩ := ngrams_windows_of_runs loopProgram_compiled commonObjectMethods
    (by decide : 0 < loopOptions.size) rfl loopProgram_get?_loopMethod
  have hmem : loopPair ∈ found.toList := by
    rw [hfound] at hlist
    exact of_decide_eq_true (Except.ok.inj hlist)
  exact ⟨loopProgram_compiled, by decide, rfl, loopProgram_get?_loopMethod, found, hfound, hmem,
    hall loopPair hmem⟩

end CallNgrams
