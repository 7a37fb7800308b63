import CallNgrams.Proofs.Search.Gram
import CallNgrams.Proofs.Search.Termination

/-!
# Searches of methods without loops

A search that enters no called methods finds exactly the windows of calls along the paths of its
method, if the method has no loops. A path that meets a window again is cut, but whoever has found
the window before has gone on behind it with the same last calls. It is not a path that the cut one
continues, for that one would have gone round a loop; so it has been followed to its end.
-/

namespace CallNgrams

open Relation

/-- Control does not get back to any node that it can get to. -/
def MethodGraph.LoopFree (graph : MethodGraph) : Prop :=
  ∀ i, graph.Reachable i → ¬TransGen graph.Edge i i

/-- The call at a call site of a method that has no callers. -/
def CallSite.item (root : MethodKey) (site : CallSite) : GramItem :=
  ⟨site.target, ⟨⟨root, site.offset⟩, []⟩⟩

/-- The last call of an n-gram. -/
def Ngram.last (ngram : Ngram) : GramItem :=
  ngram.toList.getLast (List.cons_ne_nil _ _)

/-- The last call of a window is the latest one. -/
theorem Gram.IsWindow.last_eq {size : Nat} {item : GramItem} {items : List GramItem}
    {ngram : Ngram} (h : IsWindow size (item :: items) ngram) : ngram.last = item := by
  obtain ⟨hle, htoList⟩ := h
  cases size with
  | zero => cases htoList
  | succ size =>
    rw [List.take_succ_cons, List.reverse_cons] at htoList
    simp only [Ngram.last, htoList, List.getLast_concat]

/-- The path of a task. -/
def Task.walk : Task → Walk
  | .arrive walk => walk
  | .emit walk _ _ => walk

namespace MethodGraph

variable {graph : MethodGraph} {i j : Nat} {site : Option CallSite} {calls : List CallSite}

theorem path_of_step (h : graph.Step i site j) : Path graph.Step i site.toList j := by
  cases site with
  | none => exact .silent h (.stop j)
  | some site => exact .call h (.stop j)

/-- Control gets along a path from edge to edge. -/
theorem reflTransGen_of_path (h : Path graph.Step i calls j) : ReflTransGen graph.Edge i j := by
  induction h with
  | stop => exact .refl
  | silent hs _ ih => exact .head ⟨_, hs⟩ ih
  | call hs _ ih => exact .head ⟨_, hs⟩ ih

/-- A call node makes its call and falls through. -/
theorem step_of_call {node : Node} {target : CallTarget} (hnode : graph.node? i = some node)
    (hc : node.command = .call target) (h : graph.Step i site j) :
    site = some ⟨i, target⟩ ∧ node.next = some j := by
  obtain ⟨node', hnode', hmoves⟩ := h
  obtain rfl := Option.some.inj (hnode.symm.trans hnode')
  rw [hc] at hmoves
  cases hmoves with
  | call hnext => exact ⟨rfl, hnext⟩

theorem exists_call_of_step {site : CallSite} (h : graph.Step i (some site) j) :
    ∃ node, graph.node? i = some node ∧ node.command = .call site.target := by
  obtain ⟨⟨next, command⟩, hnode, hmoves⟩ := h
  cases hmoves with
  | call hnext => exact ⟨_, hnode, rfl⟩

/-- A graph whose nodes only lead forward has no loops. -/
theorem loopFree_of_forward (h : ∀ i < graph.nodes.size, ∀ node ∈ graph.node? i,
    ∀ dest ∈ node.command.destinations ++ node.next.toList, i < dest) : graph.LoopFree := by
  have hedge : ∀ {i j}, graph.Edge i j → i < j := by
    rintro i j ⟨site, node, hnode, hmoves⟩
    refine h i (lt_size_of_node? hnode) node hnode j (List.mem_append.mpr ?_)
    rcases node with ⟨next, command⟩
    cases hmoves with
    | jump => exact .inl (List.mem_singleton_self _)
    | choose hdest => exact .inl hdest
    | decline hnext => exact .inr (Option.mem_toList.mpr hnext)
    | call hnext => exact .inr (Option.mem_toList.mpr hnext)
  have hcycle : ∀ {i j}, TransGen graph.Edge i j → i < j := by
    intro i j hij
    induction hij with
    | single hlast => exact hedge hlast
    | tail _ hlast ih => exact ih.trans (hedge hlast)
  exact fun i _ hloop => Nat.lt_irrefl i (hcycle hloop)

end MethodGraph

namespace Search

variable {search : Search} {graph : MethodGraph} {walk entered : Walk} {node : Node}
  {target : CallTarget} {final found found' : NgramSet} {index : Nat} {items : List GramItem}
  {ngram : Ngram} {task : Task} {tasks : List Task}

/-- A search that stays in a method without loops and follows all of its paths. -/
structure Flat (search : Search) (graph : MethodGraph) : Prop where
  budget : search.options.budget = 0
  allowRepetitive : search.options.allowRepetitive = true
  noBranch : search.options.noBranch = false
  countSurface : search.options.countSurface = false
  start : search.start = none
  loopFree : graph.LoopFree

/-! ## Paths in the method -/

/-- A path in the starting method. Its gram ends with the calls that are made on the way, and it has
passed all marks. -/
structure OnSurface (search : Search) (graph : MethodGraph) (walk : Walk) : Prop where
  method : walk.activation.method = search.root
  graph_eq : walk.activation.graph = graph
  callers : walk.callers = []
  budget : walk.budget = 0
  marks {mark : Nat} : mark ∈ walk.activation.marks → ReflTransGen graph.Edge mark walk.index
  calls : ∃ calls, Path graph.Step graph.start calls walk.index ∧
    walk.gram.items <+: (calls.map (CallSite.item search.root)).reverse

/-- A path that arrives at an index has not been there before. -/
structure ArrivesFresh (search : Search) (graph : MethodGraph) (walk : Walk) : Prop where
  surface : search.OnSurface graph walk
  fresh : walk.index ∉ walk.activation.marks

/-- A path that has entered the index of a node. -/
structure SurfaceAt (search : Search) (graph : MethodGraph) (walk : Walk) (node : Node) :
    Prop where
  surface : search.OnSurface graph walk
  node : graph.node? walk.index = some node

theorem OnSurface.reachable (h : search.OnSurface graph walk) : graph.Reachable walk.index := by
  obtain ⟨calls, hpath, -⟩ := h.calls
  exact MethodGraph.reflTransGen_of_path hpath

/-- Control does not get back from behind a step. -/
theorem OnSurface.not_back (h : search.OnSurface graph walk) (hflat : search.Flat graph)
    {dest : Nat} (hedge : graph.Edge walk.index dest) :
    ¬ReflTransGen graph.Edge dest walk.index :=
  fun hback => hflat.loopFree walk.index h.reachable (.head' hedge hback)

/-- A path that makes a step arrives where it has not been before. -/
theorem OnSurface.step (h : search.OnSurface graph walk) (hflat : search.Flat graph)
    {site : Option CallSite} {dest : Nat} (hstep : graph.Step walk.index site dest) {gram : Gram}
    (hgram : gram.items <+:
      (site.toList.map (CallSite.item search.root)).reverse ++ walk.gram.items) :
    search.ArrivesFresh graph { walk with index := dest, gram := gram } := by
  obtain ⟨calls, hpath, hitems⟩ := h.calls
  refine ⟨⟨h.method, h.graph_eq, h.callers, h.budget, fun hmark => (h.marks hmark).tail ⟨_, hstep⟩,
    calls ++ site.toList, hpath.trans (MethodGraph.path_of_step hstep), ?_⟩, fun hmark => ?_⟩
  · rw [List.map_append, List.reverse_append]
    exact hgram.trans ((List.prefix_append_right_inj _).mpr hitems)
  · exact h.not_back hflat ⟨_, hstep⟩ (h.marks hmark)

/-- Entering a program point keeps a path on the surface. -/
theorem OnSurface.enter (h : search.OnSurface graph walk)
    (henter : search.enter? walk = some entered) : search.OnSurface graph entered := by
  rcases enter?_eq_some_iff.mp henter with ⟨-, rfl⟩ | ⟨-, -, -, rfl⟩
  · exact h
  · refine ⟨h.method, h.graph_eq, h.callers, ?_, fun {mark} hmark => ?_, h.calls⟩
    · rw [marked, h.budget, Nat.zero_sub]
    · rcases List.mem_cons.mp hmark with rfl | hmark
      · exact .refl
      · exact h.marks hmark

/-- A path enters every index that it arrives at. -/
theorem ArrivesFresh.exists_enter? (h : search.ArrivesFresh graph walk)
    (hflat : search.Flat graph) : ∃ entered, search.enter? walk = some entered := by
  have htoll : search.toll walk = 0 := by
    simp [toll, hflat.countSurface, h.surface.callers]
  cases hpoint : walk.activation.graph.isMergePoint walk.index with
  | false => exact ⟨_, enter?_eq_some_iff.mpr (.inl ⟨hpoint, rfl⟩)⟩
  | true =>
    refine ⟨_, enter?_eq_some_iff.mpr (.inr ⟨hpoint, h.fresh, ?_, rfl⟩)⟩
    rw [htoll]
    exact Nat.zero_le _

/-- The call that a path makes is one of a method without callers. -/
theorem OnSurface.items_called (h : search.OnSurface graph walk) (target : CallTarget) :
    (called walk target).items =
      CallSite.item search.root ⟨walk.index, target⟩ :: walk.gram.items := by
  rw [called, Gram.items_push, Walk.frame, Walk.point, h.method, h.callers]
  rfl

/-- A path goes on by a step of the graph. -/
theorem SurfaceAt.lead (h : search.SurfaceAt graph walk node) (hflat : search.Flat graph)
    {walk' : Walk} (hleads : search.Leads walk node walk') :
    graph.Edge walk.index walk'.index ∧ search.ArrivesFresh graph walk' := by
  obtain ⟨hsurface, hnode⟩ := h
  cases hleads with
  | back _ hcallers =>
    rw [hsurface.callers] at hcallers
    cases hcallers
  | into _ hbudget =>
    rw [hsurface.budget] at hbudget
    cases hbudget
  | jump hc =>
    have hstep := MethodGraph.step_jump hnode hc
    exact ⟨⟨_, hstep⟩, hsurface.step hflat hstep (List.prefix_refl _)⟩
  | decline hc hnext =>
    have hstep := MethodGraph.step_decline hnode hc hnext
    exact ⟨⟨_, hstep⟩, hsurface.step hflat hstep (List.prefix_refl _)⟩
  | choose hc hdest =>
    have hstep := MethodGraph.step_choose hnode hc hdest
    refine ⟨⟨_, hstep⟩, hsurface.step hflat hstep ?_⟩
    rw [Gram.items_keepLast]
    exact List.take_prefix _ _
  | @past target dest hc hnext =>
    have hstep := MethodGraph.step_call hnode hc hnext
    refine ⟨⟨_, hstep⟩, hsurface.step hflat hstep ?_⟩
    rw [grown_of_allowRepetitive hflat.allowRepetitive, hsurface.items_called]
    exact List.prefix_refl _

/-- All paths of a flat search stay on the surface. -/
theorem surface_invariant (hflat : search.Flat graph) :
    search.PathInvariant (search.ArrivesFresh graph) (search.SurfaceAt graph) where
  enter harrives hnode henter := by
    refine ⟨harrives.surface.enter henter, ?_⟩
    rw [(entered_of_enter? henter).index, ← harrives.surface.graph_eq]
    exact hnode
  lead h hleads := (h.lead hflat hleads).2

/-- The calls of a path and the call at its end, latest first. -/
theorem SurfaceAt.prefix_called (h : search.SurfaceAt graph walk node)
    (hc : node.command = .call target) {dest : Nat} (hnext : node.next = some dest) :
    ∃ calls, graph.Makes calls ∧
      (called walk target).items <+: (calls.map (CallSite.item search.root)).reverse := by
  obtain ⟨calls, hpath, hitems⟩ := h.surface.calls
  refine ⟨calls ++ [⟨walk.index, target⟩], ⟨dest, hpath.trans (.call ?_ (.stop dest))⟩, ?_⟩
  · exact MethodGraph.step_call h.node hc hnext
  · rw [h.surface.items_called, List.map_append, List.reverse_append]
    exact List.cons_prefix_cons.mpr ⟨rfl, hitems⟩

/-- An n-gram that is found is a window of calls along a path of the method. -/
theorem Windowed.exists_calls (h : search.Windowed (search.SurfaceAt graph) ngram) :
    ∃ before window, graph.Makes (before ++ window) ∧ window.length = search.options.size ∧
      ngram.toList = window.map (CallSite.item search.root) := by
  obtain ⟨walk, node, target, dest, hat, hc, hnext, -, hwindow, -⟩ := h
  obtain ⟨calls, hmakes, hitems⟩ := hat.prefix_called hc hnext
  have hsuffix : ngram.toList <:+ calls.map (CallSite.item search.root) := by
    rw [(Gram.window?_eq_some_iff.mp hwindow).2, ← List.reverse_prefix, List.reverse_reverse]
    exact (List.take_prefix _ _).trans hitems
  obtain ⟨window, ⟨before, rfl⟩, hmap⟩ := List.suffix_map_iff.mp hsuffix
  refine ⟨before, window, hmakes, ?_, hmap⟩
  rw [← Gram.length_of_window? hwindow, hmap, List.length_map]

/-! ## Windows that are found -/

/-- The windows that end with a call on some path from an index are all found, for a path that has
made the given calls before. -/
def Covers (search : Search) (graph : MethodGraph) (final : NgramSet) (index : Nat)
    (items : List GramItem) : Prop :=
  ∀ calls, Emits graph.Step index calls → calls ≠ [] → ∀ ngram,
    Gram.IsWindow search.options.size
      ((calls.map (CallSite.item search.root)).reverse ++ items) ngram → ngram ∈ final.toList

/-- The windows behind an n-gram are all found. -/
def Continued (search : Search) (graph : MethodGraph) (final : NgramSet) (ngram : Ngram) : Prop :=
  ∀ dest, graph.Edge ngram.last.frame.point.index dest →
    search.Covers graph final dest ngram.toList.reverse

theorem covers_take : search.Covers graph final index (items.take search.options.size) ↔
    search.Covers graph final index items := by
  simp only [Covers, Gram.isWindow_append_take]

/-- The windows from an index are found if those are that end with a call there, and those from all
places that control goes to. -/
theorem covers_of_steps
    (hsteps : ∀ site dest, graph.Step index site dest → search.Covers graph final dest
      ((site.toList.map (CallSite.item search.root)).reverse ++ items))
    (hlast : ∀ site dest, graph.Step index (some site) dest → ∀ ngram,
      Gram.IsWindow search.options.size (CallSite.item search.root site :: items) ngram →
        ngram ∈ final.toList) :
    search.Covers graph final index items := by
  rintro calls ⟨r, hpath⟩ hcalls ngram hwindow
  cases hpath with
  | stop => exact absurd rfl hcalls
  | silent hstep hpath => exact hsteps none _ hstep calls ⟨r, hpath⟩ hcalls ngram hwindow
  | @call _ dest _ site calls hstep hpath =>
    rcases List.eq_nil_or_concat calls with rfl | ⟨others, other, rfl⟩
    · exact hlast site dest hstep ngram hwindow
    · refine hsteps (some site) dest hstep _ ⟨r, hpath⟩ (by simp) ngram ?_
      rw [List.map_cons, List.reverse_cons, List.append_assoc] at hwindow
      exact hwindow

/-- The windows from a call are found if the one that ends with it is, and those behind it. -/
theorem SurfaceAt.covers (h : search.SurfaceAt graph walk node) (hc : node.command = .call target)
    (hwindow : ∀ ngram, (called walk target).window? search.options.size = some ngram →
      ngram ∈ final.toList)
    (hbehind : ∀ dest, graph.Edge walk.index dest →
      search.Covers graph final dest (called walk target).items) :
    search.Covers graph final walk.index walk.gram.items := by
  have hitems := h.surface.items_called target
  refine covers_of_steps (fun site dest hstep => ?_) fun site dest hstep ngram hlast => ?_
  · have hdest := hbehind dest ⟨site, hstep⟩
    obtain ⟨rfl, -⟩ := MethodGraph.step_of_call h.node hc hstep
    rw [hitems] at hdest
    exact hdest
  · obtain ⟨hsite, -⟩ := MethodGraph.step_of_call h.node hc hstep
    obtain rfl := Option.some.inj hsite
    rw [← hitems] at hlast
    exact hwindow ngram (Gram.window?_eq_some_iff.mpr hlast)

/-- Behind a call there is only its fallthrough. -/
theorem SurfaceAt.covers_behind (h : search.SurfaceAt graph walk node)
    (hc : node.command = .call target) {dest : Nat} (hnext : node.next = some dest)
    (hdest : search.Covers graph final dest items) {dest' : Nat}
    (hedge : graph.Edge walk.index dest') : search.Covers graph final dest' items := by
  obtain ⟨site, hstep⟩ := hedge
  obtain ⟨-, hnext'⟩ := MethodGraph.step_of_call h.node hc hstep
  obtain rfl := Option.some.inj (hnext.symm.trans hnext')
  exact hdest

/-- The window that ends with a call of a path ends where the path is. -/
theorem OnSurface.last_index (h : search.OnSurface graph walk)
    (hwindow : (called walk target).window? search.options.size = some ngram) :
    ngram.last.frame.point.index = walk.index := by
  have hwindow := Gram.window?_eq_some_iff.mp hwindow
  rw [h.items_called] at hwindow
  rw [hwindow.last_eq]
  rfl

/-- The windows behind an n-gram are those of every path that it is the window of. -/
theorem OnSurface.continued_iff (h : search.OnSurface graph walk)
    (hwindow : (called walk target).window? search.options.size = some ngram) :
    search.Continued graph final ngram ↔ ∀ dest, graph.Edge walk.index dest →
      search.Covers graph final dest (called walk target).items := by
  rw [Continued, h.last_index hwindow, (Gram.window?_eq_some_iff.mp hwindow).2,
    List.reverse_reverse]
  simp only [covers_take]

/-- All calls of a path are made without callers. -/
theorem OnSurface.depth_eq_zero (h : search.OnSurface graph walk) {item : GramItem}
    (hitem : item ∈ (called walk target).items) : item.frame.depth = 0 := by
  rw [h.items_called] at hitem
  rcases List.mem_cons.mp hitem with rfl | hitem
  · rfl
  · obtain ⟨calls, -, hitems⟩ := h.calls
    obtain ⟨site, -, rfl⟩ := List.mem_map.mp (List.mem_reverse.mp (hitems.subset hitem))
    rfl

theorem OnSurface.isForeign_eq_false (h : search.OnSurface graph walk) (hflat : search.Flat graph)
    (hwindow : (called walk target).window? search.options.size = some ngram) :
    search.isForeign ngram.head = false := by
  have hhead : ngram.head ∈ ngram.toList := List.mem_cons_self
  rw [(Gram.window?_eq_some_iff.mp hwindow).2, List.mem_reverse] at hhead
  refine isForeign_eq_false_iff.mpr ⟨h.depth_eq_zero (List.mem_of_mem_take hhead), ?_⟩
  intro index hstart
  rw [hflat.start] at hstart
  cases hstart

/-! ## Completeness -/

/-- The windows from the place of a task are all found. -/
def CoversTask (search : Search) (graph : MethodGraph) (final : NgramSet) (task : Task) : Prop :=
  search.Covers graph final task.walk.index task.walk.gram.items

/-- An n-gram ends at or behind the place of a task. -/
def Ahead (graph : MethodGraph) (task : Task) (ngram : Ngram) : Prop :=
  ReflTransGen graph.Edge task.walk.index ngram.last.frame.point.index

/-- What one task contributes to the windows that are found in the end. The n-grams that it stores
lie behind those that its tasks can meet, and are continued by these tasks. -/
structure Contributes (search : Search) (graph : MethodGraph) (final : NgramSet) (task : Task)
    (found found' : NgramSet) (tasks : List Task) : Prop where
  forward : ∀ task' ∈ tasks, ReflTransGen graph.Edge task.walk.index task'.walk.index
  stored : ∀ ngram ∈ found'.toList, ngram ∈ found.toList ∨
    (∀ task' ∈ tasks, ¬Ahead graph task' ngram) ∧
      ((∀ task' ∈ tasks, search.CoversTask graph final task') →
        search.Continued graph final ngram)
  covers : (∀ ngram ∈ found'.toList, ngram ∈ final.toList) →
    (∀ ngram ∈ found.toList, Ahead graph task ngram → search.Continued graph final ngram) →
    (∀ task' ∈ tasks, search.CoversTask graph final task') → search.CoversTask graph final task

/-- Behind an arrival there is a task for each way that control can go without a call. -/
theorem exists_task_of_step (hflat : search.Flat graph)
    (hgraph : walk.activation.graph = graph) (henter : search.enter? walk = some entered)
    (hexpand : search.expand walk = .ok tasks) {dest : Nat}
    (hstep : graph.Step walk.index none dest) :
    ∃ task ∈ tasks, task.walk.index = dest ∧ task.walk.gram.items.take search.options.size =
      walk.gram.items.take search.options.size := by
  obtain ⟨⟨next, command⟩, hnode, hmoves⟩ := hstep
  rw [← hgraph] at hnode
  rw [← (entered_of_enter? henter).gram]
  cases hmoves with
  | jump => exact ⟨_, mem_expand_jump hnode henter hexpand rfl, rfl, rfl⟩
  | decline hnext => exact ⟨_, mem_expand_decline hnode henter hexpand rfl hnext, rfl, rfl⟩
  | choose hdest =>
    refine ⟨_, mem_expand_choose hnode henter hexpand rfl hflat.noBranch hdest, rfl, ?_⟩
    rw [Task.walk, Gram.items_keepLast, List.take_take, Nat.min_self]

/-- An arrival hands its windows on to the tasks behind it. -/
theorem ArrivesFresh.contributes (h : search.ArrivesFresh graph walk) (hflat : search.Flat graph)
    (hexpand : search.expand walk = .ok tasks) :
    search.Contributes graph final (.arrive walk) found found tasks := by
  obtain ⟨entered, henter⟩ := h.exists_enter? hflat
  have hsame := entered_of_enter? henter
  refine ⟨fun task' hmem => ?_, fun ngram => .inl, fun _ _ htasks => ?_⟩
  · obtain ⟨node, entered', hnode, henter', hgo⟩ := mem_expand hexpand hmem
    have hat := (surface_invariant hflat).enter h hnode henter'
    rw [Task.walk, ← (entered_of_enter? henter').index]
    rcases hgo with ⟨walk', rfl, hleads⟩ | ⟨target, -, rfl⟩
    · exact .single (hat.lead hflat hleads).1
    · exact .refl
  · by_cases hcall : ∃ site dest, graph.Step walk.index (some site) dest
    · obtain ⟨site, dest, hstep⟩ := hcall
      obtain ⟨node, hnode, hc⟩ := MethodGraph.exists_call_of_step hstep
      rw [← h.surface.graph_eq] at hnode
      have hemit := htasks _ (mem_expand_call hnode henter hexpand hc)
      rw [CoversTask, Task.walk, hsame.index, hsame.gram] at hemit
      exact hemit
    · have hsilent : ∀ {site dest}, ¬graph.Step walk.index (some site) dest :=
        fun hstep => hcall ⟨_, _, hstep⟩
      refine covers_of_steps (fun site dest hstep => ?_) fun site dest hstep => absurd hstep hsilent
      cases site with
      | some site => exact absurd hstep hsilent
      | none =>
        obtain ⟨task', hmem, rfl, hitems⟩ :=
          exists_task_of_step hflat h.surface.graph_eq henter hexpand hstep
        have hcovers := covers_take.mpr (htasks task' hmem)
        rw [hitems] at hcovers
        exact covers_take.mp hcovers

/-- A call is the end of a window that it stores or that is found already, and in both cases the
windows behind it are found. -/
theorem SurfaceAt.contributes (h : search.SurfaceAt graph walk node) (hflat : search.Flat graph)
    (hc : node.command = .call target)
    (hemission : search.Emission walk target node.next found found' tasks) :
    search.Contributes graph final (.emit walk target node.next) found found' tasks := by
  have hgrown := grown_of_allowRepetitive hflat.allowRepetitive walk target
  have hedge : ∀ {dest}, node.next = some dest → graph.Edge walk.index dest :=
    fun hnext => ⟨_, MethodGraph.step_call h.node hc hnext⟩
  cases hemission with
  | @passed dest hnext hnone =>
    rw [hgrown]
    refine ⟨List.forall_mem_singleton.mpr (.single (hedge hnext)), fun _ => .inl, ?_⟩
    intro _ _ htasks
    refine h.covers hc (fun ngram hwindow => ?_) fun _ =>
      h.covers_behind hc hnext (htasks _ (List.mem_singleton_self _))
    rw [hnone (if_pos hflat.allowRepetitive)] at hwindow
    cases hwindow
  | @cut ngram _ hwindow hend =>
    have hfound : ngram ∈ found.toList := by
      refine hend.resolve_left fun hforeign => ?_
      rw [h.surface.isForeign_eq_false hflat hwindow] at hforeign
      cases hforeign
    refine ⟨List.forall_mem_nil _, fun _ => .inl, fun hfinal hahead _ => ?_⟩
    -- The n-gram ends at this call, so whoever has found it has gone on from here as well.
    have hcontinued : search.Continued graph final ngram := by
      refine hahead ngram hfound ?_
      rw [Ahead, h.surface.last_index hwindow]
      exact .refl
    refine h.covers hc (fun other hother => ?_) ((h.surface.continued_iff hwindow).mp hcontinued)
    obtain rfl := Option.some.inj (hwindow.symm.trans hother)
    exact hfinal ngram hfound
  | @stored ngram dest _ hwindow _ hnext =>
    rw [hgrown]
    refine ⟨List.forall_mem_singleton.mpr (.single (hedge hnext)), fun other hother => ?_, ?_⟩
    · rcases NgramSet.mem_insert.mp hother with rfl | hother
      · refine .inr ⟨List.forall_mem_singleton.mpr ?_, fun htasks => ?_⟩
        · rw [Ahead, h.surface.last_index hwindow]
          exact h.surface.not_back hflat (hedge hnext)
        · exact (h.surface.continued_iff hwindow).mpr fun _ =>
            h.covers_behind hc hnext (htasks _ (List.mem_singleton_self _))
      · exact .inl hother
    · intro hfinal _ htasks
      refine h.covers hc (fun other hother => ?_) fun _ =>
        h.covers_behind hc hnext (htasks _ (List.mem_singleton_self _))
      obtain rfl := Option.some.inj (hwindow.symm.trans hother)
      exact hfinal ngram (NgramSet.mem_insert.mpr (.inl rfl))

theorem perform_contributes (hflat : search.Flat graph)
    (htask : OnPath (search.ArrivesFresh graph) (search.SurfaceAt graph) task)
    (h : search.perform task found = .ok (found', tasks)) :
    search.Contributes graph final task found found' tasks := by
  cases htask with
  | arrive harrives =>
    obtain ⟨tasks', hexpand, heq⟩ := exists_of_map_eq_ok h
    obtain ⟨rfl, rfl⟩ := Prod.mk.inj heq
    exact harrives.contributes hflat hexpand
  | emit hat hc => exact hat.contributes hflat hc (emission_of_emit h)

/-- All windows from the place of a task are found in the end, and those behind the n-grams that are
found on the way, if those behind the n-grams that lay ahead of the task before are. -/
def Exhausts (search : Search) (graph : MethodGraph) (final : NgramSet) (task : Task)
    (found found' : NgramSet) : Prop :=
  (∀ ngram ∈ found'.toList, ngram ∈ final.toList) →
    (∀ ngram ∈ found.toList, Ahead graph task ngram → search.Continued graph final ngram) →
    search.CoversTask graph final task ∧
      ∀ ngram ∈ found'.toList, ngram ∈ found.toList ∨ search.Continued graph final ngram

/-- Tasks that are followed in order exhaust their windows if each one does. -/
theorem foldlM_exhausts {depth : Nat}
    (hexhausts : ∀ task ∈ tasks, ∀ found found', search.explore depth task found = .ok found' →
      search.Exhausts graph final task found found')
    (h : tasks.foldlM (fun found task => search.explore depth task found) found = .ok found')
    (hfinal : ∀ ngram ∈ found'.toList, ngram ∈ final.toList)
    (hahead : ∀ task ∈ tasks, ∀ ngram ∈ found.toList, Ahead graph task ngram →
      search.Continued graph final ngram) :
    (∀ task ∈ tasks, search.CoversTask graph final task) ∧
      ∀ ngram ∈ found'.toList, ngram ∈ found.toList ∨ search.Continued graph final ngram := by
  induction tasks generalizing found with
  | nil =>
    obtain rfl : found = found' := Except.ok.inj h
    exact ⟨List.forall_mem_nil _, fun _ => .inl⟩
  | cons task tasks ih =>
    obtain ⟨mid, hmid, hrest⟩ := foldlM_cons_eq_ok h
    rw [List.forall_mem_cons] at hahead
    obtain ⟨hcovers, hnew⟩ := hexhausts task List.mem_cons_self found mid hmid
      (fun ngram hngram => hfinal ngram (mem_foldlM_explore hrest hngram)) hahead.1
    obtain ⟨hcoversRest, hnewRest⟩ := ih
      (fun task' hmem => hexhausts task' (List.mem_cons_of_mem _ hmem)) hrest
      fun task' hmem ngram hngram hngramAhead => (hnew ngram hngram).elim
        (fun hold => hahead.2 task' hmem ngram hold hngramAhead) id
    refine ⟨List.forall_mem_cons.mpr ⟨hcovers, hcoversRest⟩, fun ngram hngram => ?_⟩
    exact (hnewRest ngram hngram).elim (hnew ngram) .inr

/-- A task and all that it leads to exhaust the windows from its place. -/
theorem explore_exhausts (hflat : search.Flat graph)
    (htask : OnPath (search.ArrivesFresh graph) (search.SurfaceAt graph) task) {depth : Nat}
    (h : search.explore depth task found = .ok found') :
    search.Exhausts graph final task found found' := by
  induction depth generalizing task found found' with
  | zero => cases h
  | succ depth ih =>
    rw [explore_succ] at h
    obtain ⟨⟨mid, tasks⟩, hperform, h⟩ := exists_of_bind_eq_ok h
    have htasks := ((surface_invariant hflat).perform htask hperform).1
    have hstep : search.Contributes graph final task found mid tasks :=
      perform_contributes hflat htask hperform
    intro hfinal hahead
    -- What the task stores itself lies on the path to the tasks behind it, so not ahead of them.
    have haheadMid : ∀ task' ∈ tasks, ∀ ngram ∈ mid.toList, Ahead graph task' ngram →
        search.Continued graph final ngram := by
      intro task' hmem ngram hngram hngramAhead
      rcases hstep.stored ngram hngram with hold | ⟨hnot, -⟩
      · exact hahead ngram hold ((hstep.forward task' hmem).trans hngramAhead)
      · exact absurd hngramAhead (hnot task' hmem)
    obtain ⟨hcovers, hnew⟩ := foldlM_exhausts
      (fun task' hmem found found' hrun => ih (htasks task' hmem) hrun) h hfinal haheadMid
    have hmidFinal : ∀ ngram ∈ mid.toList, ngram ∈ final.toList := fun ngram hngram =>
      hfinal ngram (mem_foldlM_explore h hngram)
    refine ⟨hstep.covers hmidFinal hahead hcovers, fun ngram hngram => ?_⟩
    rcases hnew ngram hngram with hmid | hcontinued
    · exact (hstep.stored ngram hmid).imp_right fun hstored => hstored.2 hcovers
    · exact .inr hcontinued

/-- The path at the beginning of a search has not been anywhere. -/
theorem arrivesFresh_start (hflat : search.Flat graph) : search.ArrivesFresh graph
    ⟨graph.start, ⟨search.root, graph, []⟩, [], search.options.budget, .empty⟩ :=
  ⟨⟨rfl, rfl, rfl, hflat.budget, fun hmark => absurd hmark List.not_mem_nil,
    [], .stop _, List.nil_prefix⟩, List.not_mem_nil⟩

/-- A search finds exactly the windows of calls along the paths of its method. -/
theorem mem_exploreFrom_iff (hflat : search.Flat graph) (hsize : 0 < search.options.size)
    {depth : Nat} (h : search.exploreFrom depth graph graph.start .empty = .ok found) :
    ngram ∈ found.toList ↔ ∃ before window after, graph.Makes (before ++ window ++ after) ∧
      window.length = search.options.size ∧
      ngram.toList = window.map (CallSite.item search.root) := by
  have hstart : OnPath (search.ArrivesFresh graph) (search.SurfaceAt graph) (.arrive
      ⟨graph.start, ⟨search.root, graph, []⟩, [], search.options.budget, .empty⟩) :=
    .arrive (arrivesFresh_start hflat)
  constructor
  · intro hngram
    have hwindowed := ((surface_invariant hflat).explore hstart h hngram).resolve_left
      NgramSet.not_mem_empty
    obtain ⟨before, window, hmakes, hlength, hmap⟩ := hwindowed.exists_calls
    exact ⟨before, window, [], by rwa [List.append_nil], hlength, hmap⟩
  · rintro ⟨before, window, after, ⟨r, hpath⟩, hlength, hmap⟩
    obtain ⟨q, hpath, -⟩ := hpath.split
    have hcovers := (explore_exhausts hflat hstart h (fun _ => id)
      fun _ hnone => absurd hnone NgramSet.not_mem_empty).1
    refine hcovers (before ++ window) ⟨q, hpath⟩ (fun hnil => ?_) ngram ⟨?_, ?_⟩
    · rw [(List.append_eq_nil_iff.mp hnil).2] at hlength
      exact Nat.ne_of_lt hsize hlength
    · simp [hlength]
    · rw [hmap, List.map_append, List.reverse_append, List.append_assoc, List.take_left',
        List.reverse_reverse]
      rw [List.length_reverse, List.length_map, hlength]

end Search

/-- The search of a method without loops that enters no called methods ends, and it finds exactly
the windows of consecutive calls along the paths of the method, each call with its own call site. -/
theorem ngrams_exact_of_loopFree {graphs : GraphTable} {options : SearchOptions} {root : MethodKey}
    {graph : MethodGraph} (policy : DigPolicy) (hroot : graphs.get? root = some graph)
    (hgraph : graph.Compiled) (hloop : graph.LoopFree) (hsize : 0 < options.size)
    (hdepth : options.maxCallDepth = 0) (hallow : options.allowRepetitive = true)
    (hbranch : options.noBranch = false) (hsurface : options.countSurface = false) :
    ∃ found, ngrams graphs policy options root = .ok found ∧
      ∀ ngram, ngram ∈ found.toList ↔ ∃ before window after,
        graph.Makes (before ++ window ++ after) ∧ window.length = options.size ∧
          ngram.toList = window.map (CallSite.item root) := by
  have hbudget : options.budget = 0 := by
    rw [SearchOptions.budget, hdepth]
    rfl
  have hflat : Search.Flat ⟨graphs, policy, options, root, none⟩ graph :=
    ⟨hbudget, hallow, hbranch, hsurface, rfl, hloop⟩
  have henterable : Search.Enterable ⟨graphs, policy, options, root, none⟩
      (pointCount graphs + 1) := by
    intro hpositive
    exact absurd hpositive (hbudget ▸ Nat.lt_irrefl 0)
  obtain ⟨found, hfound⟩ := Search.exists_exploreFrom henterable hgraph.sound
    (Nat.lt_succ_of_le (size_le_pointCount hroot)) .refl
    (searchDepth_lt_depthLimit graphs options) .empty
  refine ⟨found, ?_, fun ngram => Search.mem_exploreFrom_iff hflat hsize hfound⟩
  rw [ngrams, ngramsWithin_eq hsize hroot]
  exact hfound

/-- A call that can be skipped, between one call before it and three behind it. -/
def forkBody : Body :=
  ⟨#[some ⟨"invokestatic", [], some "// Method t/A.a:()V"⟩, some ⟨"ifeq", ["3"], none⟩,
    some ⟨"invokestatic", [], some "// Method t/A.b:()V"⟩,
    some ⟨"invokestatic", [], some "// Method t/A.c:()V"⟩,
    some ⟨"invokestatic", [], some "// Method t/A.d:()V"⟩,
    some ⟨"invokestatic", [], some "// Method t/A.e:()V"⟩]⟩

/-- The graph of `forkBody`. -/
def forkGraph : MethodGraph where
  nodes := #[some ⟨some 1, .call ⟨some "t/A", "a:()V"⟩⟩, some ⟨some 2, .branch [3]⟩,
    some ⟨some 3, .call ⟨some "t/A", "b:()V"⟩⟩, some ⟨some 4, .call ⟨some "t/A", "c:()V"⟩⟩,
    some ⟨some 5, .call ⟨some "t/A", "d:()V"⟩⟩, some ⟨some 6, .call ⟨some "t/A", "e:()V"⟩⟩,
    some ⟨none, .ret⟩]
  start := 0
  mergePoints := [3]

/-- Pairs of calls of the starting method. -/
def forkOptions : SearchOptions where
  size := 2
  maxCallDepth := 0
  allowRepetitive := true

/-- Both ways through the fork come to the pair of the third and the fourth call, and the second one
is cut there; the five pairs of calls are found all the same. -/
theorem ngrams_exact_of_loopFree_fork :
    forkGraph.Compiled ∧ forkGraph.LoopFree ∧ 0 < forkOptions.size ∧
      forkOptions.maxCallDepth = 0 ∧ forkOptions.allowRepetitive = true ∧
      forkOptions.noBranch = false ∧ forkOptions.countSurface = false ∧
      ∃ found, ngrams (SignatureTable.empty.insert loopMethod forkGraph) commonObjectMethods
          forkOptions loopMethod = .ok found ∧ found.size = 5 ∧
        ∀ ngram, ngram ∈ found.toList ↔ ∃ before window after,
          forkGraph.Makes (before ++ window ++ after) ∧ window.length = 2 ∧
            ngram.toList = window.map (CallSite.item loopMethod) := by
  have hcompile : forkBody.compile none false loopMethod = .ok forkGraph := by decide +kernel
  have hcompiled := MethodGraph.compiled_of_compile hcompile
  have hloop : forkGraph.LoopFree := MethodGraph.loopFree_of_forward (by decide)
  have hroot : (SignatureTable.empty.insert loopMethod forkGraph).get? loopMethod =
      some forkGraph := by
    decide +kernel
  have hsize : (ngrams (SignatureTable.empty.insert loopMethod forkGraph) commonObjectMethods
      forkOptions loopMethod).map NgramSet.size = .ok 5 := by
    decide +kernel
  obtain ⟨found, hfound, hexact⟩ := ngrams_exact_of_loopFree commonObjectMethods hroot hcompiled
    hloop (by decide : 0 < forkOptions.size) rfl rfl rfl rfl
  rw [hfound] at hsize
  exact ⟨hcompiled, hloop, by decide, rfl, rfl, rfl, rfl, found, hfound,
    Except.ok.inj hsize, hexact⟩

end CallNgrams
