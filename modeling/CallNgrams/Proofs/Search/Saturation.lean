import CallNgrams.Proofs.Search.Finders
import CallNgrams.Proofs.Search.Freedom
import CallNgrams.Proofs.Search.LoopFree
import CallNgrams.Proofs.Search.Provenance

/-!
# Paths that end at n-grams found before

A path ends at an n-gram that another path has found before. Nothing is lost if the other path is
held back no more, for it goes on in all the ways in which the ended path would have gone on. But a
path with more marks or a smaller budget may come first, and then n-grams behind are lost.
-/

namespace CallNgrams

open Relation

/-! ## Grams that paths do not tell apart -/

/-- Only the first calls are looked at. -/
theorem Gram.isFree_take {signature : String} {count size : Nat} (hle : count ≤ size)
    (items : List GramItem) : isFree signature count (items.take size) =
      isFree signature count items := by
  induction count generalizing size items with
  | zero => rfl
  | succ count ih =>
    obtain ⟨size, rfl⟩ : ∃ k, size = k + 1 := ⟨size - 1, by omega⟩
    cases items with
    | nil => rfl
    | cons item items => rw [List.take_succ_cons, isFree, isFree, ih (Nat.le_of_succ_le_succ hle)]

namespace Search

variable {search : Search} {free bound : Walk} {gram gram' : Gram}

/-- Grams with the same last calls. They have to be the same altogether where repetitions are
dropped, since older calls become the last ones then. -/
structure SameGram (search : Search) (gram gram' : Gram) : Prop where
  last : gram.items.take search.options.size = gram'.items.take search.options.size
  all : search.options.allowRepetitive = false → gram = gram'

namespace SameGram

theorem refl (search : Search) (gram : Gram) : search.SameGram gram gram :=
  ⟨rfl, fun _ => rfl⟩

/-- Paths make the same choices with the same last calls. -/
theorem order (hsize : 0 < search.options.size) : search.GramOrder search.SameGram where
  count_ne {free bound} h hbound hfree := by
    have hlast := h.last
    rw [Gram.count_eq, List.length_eq_zero_iff] at hfree
    rw [hfree, List.take_nil, eq_comm, List.take_eq_nil_iff] at hlast
    rw [Gram.count_eq, Ne, List.length_eq_zero_iff] at hbound
    exact hlast.elim (Nat.ne_of_gt hsize) hbound
  recentlyFree {free bound signature} h hbound := by
    rw [Gram.isRecentlyFree, ← Gram.isFree_take (Nat.sub_le _ 1)] at hbound ⊢
    rw [h.last]
    exact hbound
  keepLast {free bound} h := by
    refine ⟨?_, fun hallow => ?_⟩
    · rw [Gram.items_keepLast, Gram.items_keepLast, h.last]
    · rw [h.all hallow]

/-- Both grams end with the same n-gram. -/
theorem window?_eq (h : search.SameGram gram gram') :
    gram.window? search.options.size = gram'.window? search.options.size := by
  have htake : ∀ {items : List GramItem} {ngram : Ngram}, Gram.IsWindow search.options.size
      ([] ++ items.take search.options.size) ngram ↔
        Gram.IsWindow search.options.size ([] ++ items) ngram :=
    Gram.isWindow_append_take
  simp only [List.nil_append] at htake
  ext ngram
  rw [Gram.window?_eq_some_iff, Gram.window?_eq_some_iff, ← htake, h.last, htake]

/-- Both grams end with the same repetition. -/
theorem period?_eq (h : search.SameGram gram gram') :
    search.period? gram = search.period? gram' := by
  rw [period?, period?]
  cases hallow : search.options.allowRepetitive with
  | true => rfl
  | false => rw [h.all hallow]

/-- The same call keeps grams the same. -/
theorem called (h : search.SameGram free.gram bound.gram) (hframe : free.frame = bound.frame)
    (target : CallTarget) :
    search.SameGram (Search.called free target) (Search.called bound target) := by
  refine ⟨?_, fun hallow => ?_⟩
  · have hlast := congrArg (List.take (search.options.size - 1)) h.last
    rw [List.take_take, List.take_take, Nat.min_eq_left (Nat.sub_le _ 1)] at hlast
    cases hsize : search.options.size with
    | zero => rfl
    | succ size =>
      rw [hsize, Nat.add_sub_cancel] at hlast
      rw [Search.called, Search.called, Gram.items_push, Gram.items_push, List.take_succ_cons,
        List.take_succ_cons, hframe, hlast]
  · rw [Search.called, Search.called, hframe, h.all hallow]

/-- So they stay the same behind a call, also where it completes a repetition. -/
theorem grown (h : search.SameGram free.gram bound.gram) (hframe : free.frame = bound.frame)
    (target : CallTarget) :
    search.SameGram (search.grown free target) (search.grown bound target) := by
  cases hallow : search.options.allowRepetitive with
  | true =>
    rw [grown_of_allowRepetitive hallow, grown_of_allowRepetitive hallow]
    exact h.called hframe target
  | false =>
    rw [Search.grown, Search.grown, (h.called hframe target).all hallow]
    exact refl search _

end SameGram

end Search

namespace Task.Freer

variable {search : Search} {free bound task' : Task} {ngram : Ngram}

/-- A path that is held back less goes on wherever the other one does. -/
theorem continues (hsize : 0 < search.options.size) (h : Task.Freer search.SameGram free bound)
    (hgo : search.Continues bound task') :
    ∃ free', search.Continues free free' ∧ Task.Freer search.SameGram free' task' := by
  cases h with
  | arrive h =>
    obtain ⟨tasks, hexpand, hmem⟩ := Search.continues_arrive_iff.mp hgo
    obtain ⟨tasks', hexpand', free', hmem', hfree⟩ :=
      h.expand (Search.SameGram.order hsize) hexpand hmem
    exact ⟨free', Search.continues_arrive_iff.mpr ⟨tasks', hexpand', hmem'⟩, hfree⟩
  | @emit free bound node target h hnode hc =>
    obtain ⟨dest, hnext, rfl, hown⟩ := Search.continues_emit_iff.mp hgo
    have hcalled := h.gram.called h.frame_eq target
    refine ⟨_, Search.continues_emit_iff.mpr ⟨dest, hnext, rfl, ?_⟩, .arrive (h.goTo
      ⟨_, MethodGraph.step_call hnode hc hnext⟩ (h.gram.grown h.frame_eq target))⟩
    rw [hcalled.period?_eq, hcalled.window?_eq]
    exact hown

/-- A path that is held back less completes the same n-grams. -/
theorem completes_iff (h : Task.Freer search.SameGram free bound) :
    search.Completes free ngram ↔ search.Completes bound ngram := by
  cases h with
  | arrive => exact iff_of_false Search.not_completes_arrive Search.not_completes_arrive
  | @emit free bound node target h =>
    have hcalled := h.gram.called h.frame_eq target
    rw [Search.completes_emit_iff, Search.completes_emit_iff, hcalled.period?_eq,
      hcalled.window?_eq]

end Task.Freer

namespace Search

variable {search : Search} {walk walk' : Walk} {target target' : CallTarget}
  {next next' : Option Nat} {task task' rival : Task} {tasks : List Task} {ngram : Ngram}
  {found : NgramSet} {notes : Notes} {depth points : Nat} {performed : Task → Prop}

/-! ## Rivals for an n-gram -/

/-- A path is held back no more than another one at the same call: it has no marks ahead that the
other lacks, no smaller budget and, where repetitions are dropped, the same gram. -/
structure NoLessFree (search : Search) (rival walk : Walk) : Prop where
  marks : rival.activation.LessMarked walk.index walk.activation
  waiting : List.Forall₂ (fun caller' caller =>
    caller'.activation.LessMarked caller.site caller.activation) rival.callers walk.callers
  budget : walk.budget ≤ rival.budget
  gram : search.options.allowRepetitive = false → rival.gram = walk.gram

/-- Where repetitions are allowed, a path with no other marks, the same callers and no smaller
budget is held back no more. -/
theorem NoLessFree.of_subset {rival : Walk}
    (hmarks : rival.activation.marks ⊆ walk.activation.marks)
    (hcallers : rival.callers = walk.callers) (hbudget : walk.budget ≤ rival.budget)
    (hallow : search.options.allowRepetitive = true) : search.NoLessFree rival walk := by
  refine ⟨fun _ hmark _ => hmarks hmark, ?_, hbudget, fun hnot => ?_⟩
  · rw [hcallers]
    exact List.forall₂_same.mpr fun _ _ _ hmark _ => hmark
  · rw [hallow] at hnot
    cases hnot

/-- A task of a path that leads from the starting method on. -/
def Rooted (search : Search) (points : Nat) : Task → Prop :=
  OnPath (fun walk => search.Traced walk ∧ walk.Grounded points search.options.budget)
    (fun walk node => search.TracedAt walk node ∧
      walk.GroundedAt points search.options.budget node)

/-- All paths from a rooted task are rooted. -/
theorem Rooted.continues (hgraphs : search.Enterable points) (h : search.Rooted points task)
    (hpath : ReflTransGen search.Continues task task') : search.Rooted points task' :=
  (search.traced_invariant.and (grounded_invariant hgraphs)).continues h hpath

/-- Waiting callers at the same calls that are less marked are held back less. -/
theorem forall₂_freer {graphs : GraphTable} {callers callers' : List Suspended}
    (h : List.Forall₂ (fun caller' caller =>
      caller'.activation.LessMarked caller.site caller.activation) callers' callers)
    (hpoints : callers'.map Suspended.point = callers.map Suspended.point)
    (hgraphs' : ∀ caller ∈ callers',
      graphs.get? caller.activation.method = some caller.activation.graph)
    (hgraphs : ∀ caller ∈ callers,
      graphs.get? caller.activation.method = some caller.activation.graph ∧
        ∃ site dest, caller.activation.graph.node? caller.site = some site ∧
          site.next = some dest ∧ caller.activation.graph.Edge caller.site dest) :
    List.Forall₂ Suspended.Freer callers' callers := by
  induction h with
  | nil => exact .nil
  | @cons caller' caller callers' callers hmarks _ ih =>
    obtain ⟨hpoint, hpoints⟩ := List.cons.inj hpoints
    obtain ⟨hmethod, hsite⟩ := ProgramPoint.mk.inj hpoint
    obtain ⟨hcaller, hrest⟩ := List.forall_mem_cons.mp hgraphs
    obtain ⟨hcaller', hrest'⟩ := List.forall_mem_cons.mp hgraphs'
    obtain ⟨hgraph, site, dest, hnode, hnext, hedge⟩ := hcaller
    refine .cons ⟨hsite, ⟨hmethod, ?_, hmarks⟩, fun hnode' hnext' => ?_⟩ (ih hpoints hrest' hrest)
    · rw [hmethod, hgraph] at hcaller'
      exact (Option.some.inj hcaller').symm
    · obtain rfl := Option.some.inj (hnode.symm.trans hnode')
      obtain rfl := Option.some.inj (hnext.symm.trans hnext')
      exact hedge

/-- The last call of an n-gram is the one that completes it. -/
theorem Completes.last_eq (h : search.Completes (.emit walk target next) ngram) :
    ngram.last = ⟨target, walk.frame⟩ :=
  (Gram.window?_eq_some_iff.mp (completes_emit_iff.mp h).2.2.1).last_eq

/-- Paths that complete the same n-gram go on with grams that end with it. -/
theorem sameGram_of_completes (h' : search.Completes (.emit walk' target' next') ngram)
    (h : search.Completes (.emit walk target next) ngram)
    (hgram : search.options.allowRepetitive = false → walk'.gram = walk.gram) :
    search.SameGram (search.grown walk' target') (search.grown walk target) := by
  obtain ⟨-, hperiod', hwindow', -⟩ := completes_emit_iff.mp h'
  obtain ⟨-, hperiod, hwindow, -⟩ := completes_emit_iff.mp h
  rw [grown, grown, hperiod', hperiod, Option.elim_none, Option.elim_none]
  refine ⟨?_, fun hallow => ?_⟩
  · rw [← List.reverse_inj, ← (Gram.window?_eq_some_iff.mp hwindow').2,
      (Gram.window?_eq_some_iff.mp hwindow).2]
  · rw [called, called, hgram hallow, ← h'.last_eq, ← h.last_eq]

/-- Paths with the same frame run the same methods, so that their marks and budgets are all that
tells how far they are held back. -/
theorem NoLessFree.freer {node : Node} (hfree : search.NoLessFree walk' walk)
    (htraced' : search.Traced walk') (htraced : search.Traced walk)
    (hat : walk.GroundedAt points search.options.budget node)
    (hframe : walk'.frame = walk.frame) : walk'.Freer (fun _ _ => True) walk := by
  obtain ⟨hpoint, hcallers⟩ := Frame.mk.inj hframe
  obtain ⟨hmethod, hindex⟩ := ProgramPoint.mk.inj hpoint
  have hgraph : walk'.activation.graph = walk.activation.graph := by
    have hrunning := htraced'.running
    rw [hmethod, htraced.running] at hrunning
    exact (Option.some.inj hrunning).symm
  exact ⟨hindex, ⟨hmethod, hgraph, hfree.marks⟩, forall₂_freer hfree.waiting hcallers
    (fun _ hmem => htraced'.waiting hmem)
    (fun _ hmem => ⟨htraced.waiting hmem, (hat.1.waiting hmem).2⟩), hfree.budget, trivial⟩

/-- Behind an n-gram, a path that was held back no more than another one goes on as that one. -/
theorem NoLessFree.continues (hrival : search.Rooted points rival)
    (htask : search.Rooted points task) (hfree : search.NoLessFree rival.walk task.walk)
    (hcompletes' : search.Completes rival ngram) (hcompletes : search.Completes task ngram)
    (hgo : search.Continues task task') :
    ∃ rival', search.Continues rival rival' ∧ Task.Freer search.SameGram rival' task' := by
  cases hrival with
  | arrive => exact absurd hcompletes' not_completes_arrive
  | @emit walk' node' target' hat' hc' =>
    cases htask with
    | arrive => exact absurd hcompletes not_completes_arrive
    | @emit walk node target hat hc =>
      -- Both paths have made the last call of the n-gram, so they are at the same place.
      obtain ⟨rfl, hframe⟩ := GramItem.mk.inj (hcompletes'.last_eq.symm.trans hcompletes.last_eq)
      have hfreer := hfree.freer hat'.1.traced hat.1.traced hat.2 hframe
      have hnode : node' = node :=
        Option.some.inj (hat'.1.node.symm.trans (hfreer.node? hat.1.node))
      subst hnode
      obtain ⟨dest, hnext, rfl, -⟩ := continues_emit_iff.mp hgo
      obtain ⟨-, -, hwindow, hforeign⟩ := completes_emit_iff.mp hcompletes'
      refine ⟨_, continues_emit_iff.mpr ⟨dest, hnext, rfl, fun other _ hother => ?_⟩,
        .arrive (hfreer.goTo ⟨_, MethodGraph.step_call hat.1.node hc hnext⟩
          (sameGram_of_completes hcompletes' hcompletes hfree.gram))⟩
      obtain rfl := Option.some.inj (hwindow.symm.trans hother)
      exact hforeign

/-- A task on a path along which every n-gram that is completed before is found by a path that is
held back no more. The search that finds it begins with `first`. -/
inductive Undisputed (search : Search) (start first : Task) : Task → Prop where
  | start : Undisputed search start first start
  | next {task task' : Task} : Undisputed search start first task → search.Continues task task' →
      (∀ ngram finder, search.Completes task ngram → search.FindsAt first finder ngram →
        search.NoLessFree finder.walk task.walk) →
      Undisputed search start first task'

namespace Undisputed

variable {start first : Task}

/-- An undisputed path is a path. -/
theorem reached (h : search.Undisputed start first task) :
    ReflTransGen search.Continues start task := by
  induction h with
  | start => exact .refl
  | next _ hgo _ ih => exact ih.tail hgo

/-- Where all n-grams are found by paths that are held back no more, every path is undisputed. -/
theorem of_reached (hpath : ReflTransGen search.Continues start task)
    (hall : ∀ task finder ngram, ReflTransGen search.Continues start task →
      search.Completes task ngram → search.FindsAt first finder ngram →
      search.NoLessFree finder.walk task.walk) :
    search.Undisputed start first task := by
  induction hpath with
  | refl => exact .start
  | @tail task task' hpath hgo ih =>
    exact ih.next hgo fun ngram finder => hall task finder ngram hpath

/-- A search performs a task that is held back no more than the one on an undisputed path. -/
theorem exists_performed (hsize : 0 < search.options.size) (hgraphs : search.Enterable points)
    (hstart : search.Rooted points start) (hfirst : search.Rooted points first)
    (hfree : Task.Freer search.SameGram first start)
    (hrun : search.exploreNoting depth first .empty = .ok notes)
    (htrace : search.Trace [first] .empty notes performed)
    (h : search.Undisputed start first task) :
    ∃ rival, performed rival ∧ Task.Freer search.SameGram rival task := by
  induction h with
  | start => exact ⟨first, htrace.given (List.mem_singleton_self _), hfree⟩
  | @next task task' hpath hgo hno ih =>
    obtain ⟨rival, hrival, hfreer⟩ := ih
    rcases htrace.followed hrival with hall | ⟨ngram, hcompletes, hsettled⟩
    · obtain ⟨rival', hgo', hfreer'⟩ := hfreer.continues hsize hgo
      exact ⟨rival', hall rival' hgo', hfreer'⟩
    · -- The rival ends at an n-gram, but the path that has found the n-gram takes its place.
      obtain ⟨finder, hfinder, hfind, hcompletes', hall⟩ :=
        hsettled.resolve_left NgramSet.not_mem_empty
      obtain ⟨other, hother, horigin⟩ := htrace.origin hfinder
      obtain rfl := List.mem_singleton.mp hother
      rw [hfreer.completes_iff] at hcompletes
      have hno := hno ngram finder hcompletes ((findsAt_iff hrun).mpr hfind)
      obtain ⟨finder', hgo', hfreer'⟩ := hno.continues (hfirst.continues hgraphs horigin)
        (hstart.continues hgraphs hpath.reached) hcompletes' hcompletes hgo
      exact ⟨finder', hall finder' hgo', hfreer'⟩

/-- An n-gram that an undisputed path completes is found. -/
theorem mem_explore (hsize : 0 < search.options.size) (hgraphs : search.Enterable points)
    (hstart : search.Rooted points start) (hfirst : search.Rooted points first)
    (hfree : Task.Freer search.SameGram first start)
    (hrun : search.explore depth first .empty = .ok found)
    (h : search.Undisputed start first task) (hcompletes : search.Completes task ngram) :
    ngram ∈ found.toList := by
  obtain ⟨notes, hnoting, rfl⟩ := exists_exploreNoting hrun
  obtain ⟨performed, htrace⟩ := exists_trace hnoting
  obtain ⟨rival, hrival, hfreer⟩ :=
    h.exists_performed hsize hgraphs hstart hfirst hfree hnoting htrace
  exact htrace.completes hrival (hfreer.completes_iff.mpr hcompletes)

end Undisputed

/-! ## Listing the tasks of all paths -/

/-- The tasks that the paths from a task come to, down to a depth. -/
def reach (search : Search) : Nat → Task → Except Error (List Task)
  | 0, _ => .error (.unboundedSearch search.root)
  | depth + 1, task => do
    let result ← search.perform task .empty
    let behind ← result.2.mapM (search.reach depth)
    .ok (task :: behind.flatten)

/-- The list has every task that a path comes to. -/
theorem mem_reach (h : search.reach depth task = .ok tasks)
    (hpath : ReflTransGen search.Continues task task') : task' ∈ tasks := by
  induction depth generalizing task tasks with
  | zero => cases h
  | succ depth ih =>
    obtain ⟨⟨new, first⟩, hperform, h⟩ := exists_of_bind_eq_ok h
    obtain ⟨behind, hbehind, h⟩ := exists_of_bind_eq_ok h
    obtain rfl := Except.ok.inj h
    rcases hpath.cases_head with rfl | ⟨mid, ⟨new', first', hperform', hmid⟩, hpath⟩
    · exact List.mem_cons_self
    · obtain ⟨rfl, rfl⟩ := Prod.mk.inj (Except.ok.inj (hperform.symm.trans hperform'))
      obtain ⟨i, hi⟩ := List.mem_iff_getElem?.mp hmid
      obtain ⟨others, hothers, hget⟩ := getElem?_of_mapM hbehind hi
      exact List.mem_cons_of_mem _ (List.mem_flatten.mpr
        ⟨others, List.mem_of_getElem? hget, ih hothers hpath⟩)

/-- The n-grams that a task completes. -/
def completed (search : Search) (task : Task) : List Ngram :=
  (search.perform task .empty).toOption.elim [] fun result => result.1.toList

theorem mem_completed_iff : ngram ∈ search.completed task ↔ search.Completes task ngram := by
  rw [completed, Completes]
  cases search.perform task .empty with
  | error e => simp [Except.toOption]
  | ok result => simp [Except.toOption, Prod.ext_iff]

/-- Whether the search from `first` finds each n-gram by a path with no other marks, the same callers
and no smaller budget than any path from `start` that completes it, down to a depth. -/
def checkFinders (search : Search) (depth : Nat) (start first : Task) : Except Error Bool := do
  let tasks ← search.reach depth start
  let notes ← search.exploreNoting depth first .empty
  .ok (decide (∀ task ∈ tasks, ∀ find ∈ notes.finds, find.2 ∈ search.completed task →
    find.1.walk.activation.marks ⊆ task.walk.activation.marks ∧
      find.1.walk.callers = task.walk.callers ∧ task.walk.budget ≤ find.1.walk.budget))

/-- Where repetitions are allowed, the check is enough for a search to lose nothing. -/
theorem noLessFree_of_checkFinders {start first finder : Task}
    (hallow : search.options.allowRepetitive = true)
    (h : search.checkFinders depth start first = .ok true)
    (hpath : ReflTransGen search.Continues start task) (hcompletes : search.Completes task ngram)
    (hfinds : search.FindsAt first finder ngram) :
    search.NoLessFree finder.walk task.walk := by
  obtain ⟨tasks, htasks, h⟩ := exists_of_bind_eq_ok h
  obtain ⟨notes, hnotes, h⟩ := exists_of_bind_eq_ok h
  obtain ⟨hmarks, hcallers, hbudget⟩ := of_decide_eq_true (Except.ok.inj h) task
    (mem_reach htasks hpath) (finder, ngram) ((findsAt_iff hnotes).mp hfinds)
    (mem_completed_iff.mpr hcompletes)
  exact .of_subset hmarks hcallers hbudget hallow

/-- The path at the beginning of a search, with no more than its budget. -/
theorem rooted_arrive (search : Search) {graph : MethodGraph} {index budget : Nat}
    (hroot : search.graphs.get? search.root = some graph) (hsound : graph.Sound)
    (hlt : graph.nodes.size < points) (hindex : graph.Reachable index)
    (hbudget : budget ≤ search.options.budget) :
    search.Rooted points (.arrive ⟨index, ⟨search.root, graph, []⟩, [], budget, .empty⟩) := by
  obtain ⟨hrunning, hwaiting, hstacked, -, hmade⟩ := traced_start hroot index
  exact .arrive ⟨⟨hrunning, hwaiting, hstacked, hbudget, hmade⟩, ⟨hsound, hlt, hindex⟩,
    fun hmem => absurd hmem List.not_mem_nil, hbudget⟩

/-- At the beginning a higher budget holds a path back less. -/
theorem freer_arrive (search : Search) (graph : MethodGraph) (index : Nat) {budget budget' : Nat}
    (hle : budget ≤ budget') : Task.Freer search.SameGram
      (.arrive ⟨index, ⟨search.root, graph, []⟩, [], budget', .empty⟩)
      (.arrive ⟨index, ⟨search.root, graph, []⟩, [], budget, .empty⟩) :=
  .arrive ⟨rfl, ⟨rfl, rfl, fun _ hmark => absurd hmark List.not_mem_nil⟩, .nil, hle,
    SameGram.refl search _⟩

end Search

/-! ## Searches of compiled programs -/

namespace Search

variable {search : Search} {graph : MethodGraph} (hgraphs : search.graphs.Compiled)
  (hsize : 0 < search.options.size) (hroot : search.graphs.get? search.root = some graph)
  (hstart : search.start = none)

include hgraphs hroot

/-- A search of a compiled program begins with a path of its starting method. -/
theorem rooted_opening {budget : Nat} (hbudget : budget ≤ search.options.budget) :
    search.Rooted (pointCount search.graphs + 1)
      (.arrive ⟨graph.start, ⟨search.root, graph, []⟩, [], budget, .empty⟩) :=
  search.rooted_arrive hroot (hgraphs search.root graph hroot).sound
    (Nat.lt_succ_of_le (size_le_pointCount hroot)) .refl hbudget

include hsize hstart

/-- The search from the start of a method follows its first task. -/
theorem exists_explore_opening : ∃ found depth,
    ngrams search.graphs search.policy search.options search.root = .ok found ∧
      search.explore depth (search.opening graph graph.start) .empty = .ok found := by
  obtain ⟨graphs, policy, options, root, start⟩ := search
  obtain rfl : start = none := hstart
  obtain ⟨found, hfound⟩ := hgraphs.exists_ngramsWithin policy hsize hroot
  have hrun := hfound _ (Nat.lt_succ_self _)
  rw [ngramsWithin_eq hsize hroot] at hrun
  exact ⟨found, _, hfound _ (searchDepth_lt_depthLimit graphs options), hrun⟩

/-- The exhaustive search from the start of a method finds what the paths from there complete. -/
theorem exists_exhaustive_opening : ∃ all,
    exhaustiveNgrams search.graphs search.policy search.options search.root = .ok all ∧
      ∀ ngram, ngram ∈ all.toList ↔ search.Yields (search.opening graph graph.start) ngram := by
  obtain ⟨graphs, policy, options, root, start⟩ := search
  obtain rfl : start = none := hstart
  exact hgraphs.exists_exhaustiveNgrams policy hsize hroot

end Search

/-- A search only finds n-grams that paths from the start of its method complete, each at one task,
and it finds those that undisputed paths complete. So ending paths at n-grams found before loses
nothing where the path that has found an n-gram is held back no more than any other one that
completes it. -/
theorem ngrams_undisputed {search : Search} {graph : MethodGraph}
    (hgraphs : search.graphs.Compiled) (hsize : 0 < search.options.size)
    (hroot : search.graphs.get? search.root = some graph) (hstart : search.start = none) :
    ∃ found all, ngrams search.graphs search.policy search.options search.root = .ok found ∧
      exhaustiveNgrams search.graphs search.policy search.options search.root = .ok all ∧
      (∀ ngram ∈ found.toList, ngram ∈ all.toList) ∧
      (∀ ngram, ngram ∈ found.toList ↔
        ∃! finder, search.FindsAt (search.opening graph graph.start) finder ngram) ∧
      (∀ task ngram, search.Undisputed (search.opening graph graph.start)
          (search.opening graph graph.start) task → search.Completes task ngram →
        ngram ∈ found.toList) ∧
      ((∀ task finder ngram,
          ReflTransGen search.Continues (search.opening graph graph.start) task →
          search.Completes task ngram →
          search.FindsAt (search.opening graph graph.start) finder ngram →
          search.NoLessFree finder.walk task.walk) →
        ∀ ngram ∈ all.toList, ngram ∈ found.toList) := by
  obtain ⟨found, depth, hngrams, hrun⟩ := Search.exists_explore_opening hgraphs hsize hroot hstart
  obtain ⟨all, hall, hmem⟩ := Search.exists_exhaustive_opening hgraphs hsize hroot hstart
  have hrooted := Search.rooted_opening hgraphs hroot (Nat.le_refl _)
  have henterable : search.Enterable (pointCount search.graphs + 1) :=
    hgraphs.enterable search.start
  have hfree := search.freer_arrive graph graph.start (Nat.le_refl search.options.budget)
  refine ⟨found, all, hngrams, hall, fun ngram hngram => ?_,
    fun ngram => Search.mem_iff_existsUnique_findsAt hrun, fun task ngram hpath => ?_,
    fun hno ngram hngram => ?_⟩
  · exact (hmem ngram).mpr (Search.yields_of_mem_explore hrun hngram)
  · exact hpath.mem_explore hsize henterable hrooted hrooted hfree hrun
  · obtain ⟨last, hreached, hcompletes⟩ := (hmem ngram).mp hngram
    have hpath := Search.Undisputed.of_reached hreached hno
    exact hpath.mem_explore hsize henterable hrooted hrooted hfree hrun hcompletes

/-- Two calls that are entered from two sides, and a way on behind them. -/
def crossBody : Body :=
  ⟨#[some ⟨"ifeq", ["5"], none⟩, some ⟨"invokestatic", [], some "// Method t/A.d:()V"⟩,
    some ⟨"ifne", ["5"], none⟩, some ⟨"invokestatic", [], some "// Method t/A.c:()V"⟩,
    some ⟨"return", [], none⟩, some ⟨"invokestatic", [], some "// Method t/A.x:()V"⟩,
    some ⟨"invokestatic", [], some "// Method t/A.a:()V"⟩, some ⟨"goto", ["2"], none⟩]⟩

/-- The graph of `crossBody`. -/
def crossGraph : MethodGraph where
  nodes := #[some ⟨some 1, .branch [5]⟩, some ⟨some 2, .call ⟨some "t/A", "d:()V"⟩⟩,
    some ⟨some 3, .branch [5]⟩, some ⟨some 4, .call ⟨some "t/A", "c:()V"⟩⟩, some ⟨some 5, .ret⟩,
    some ⟨some 6, .call ⟨some "t/A", "x:()V"⟩⟩, some ⟨some 2, .call ⟨some "t/A", "a:()V"⟩⟩,
    some ⟨some 8, .jump 2⟩, some ⟨none, .ret⟩]
  start := 0
  mergePoints := [2, 5]

/-- A program with `crossBody` as its only method. -/
def crossProgram : GraphTable :=
  SignatureTable.empty.insert loopMethod crossGraph

/-- The last of the two calls of `crossBody` and the call behind them. -/
def crossPair : Ngram where
  head := ⟨⟨some "t/A", "a:()V"⟩, ⟨⟨loopMethod, 6⟩, []⟩⟩
  tail := [⟨⟨some "t/A", "c:()V"⟩, ⟨⟨loopMethod, 3⟩, []⟩⟩]

/-- A path that has marked the merge point behind the two calls before it comes to them finds them
first and ends. The path that comes to them straight away could go on, but it is cut there. -/
theorem crossProgram_loses_pair :
    crossProgram.Compiled ∧ crossProgram.get? loopMethod = some crossGraph ∧
      ∃ found all, ngrams crossProgram commonObjectMethods forkOptions loopMethod = .ok found ∧
        exhaustiveNgrams crossProgram commonObjectMethods forkOptions loopMethod = .ok all ∧
        crossPair ∈ all.toList ∧ crossPair ∉ found.toList := by
  have hcompile : crossBody.compile none false loopMethod = .ok crossGraph := by decide +kernel
  have hfound : (ngrams crossProgram commonObjectMethods forkOptions loopMethod).map
      (fun found => decide (crossPair ∈ found.toList)) = .ok false := by
    decide +kernel
  have hall : (exhaustiveNgrams crossProgram commonObjectMethods forkOptions loopMethod).map
      (fun all => decide (crossPair ∈ all.toList)) = .ok true := by
    decide +kernel
  obtain ⟨found, hfound, hnot⟩ := exists_of_map_eq_ok hfound
  obtain ⟨all, hall, hmem⟩ := exists_of_map_eq_ok hall
  exact ⟨GraphTable.compiled_empty.insert (MethodGraph.compiled_of_compile hcompile) loopMethod,
    by decide +kernel, found, all, hfound, hall, of_decide_eq_true hmem, of_decide_eq_false hnot⟩

/-- A loop of two calls that is entered at its start and, behind another call, at its end. -/
def sideBody : Body :=
  ⟨#[some ⟨"ifeq", ["6"], none⟩, some ⟨"invokestatic", [], some "// Method t/A.x:()V"⟩,
    some ⟨"invokestatic", [], some "// Method t/A.a:()V"⟩, some ⟨"ifne", ["1"], none⟩,
    some ⟨"invokestatic", [], some "// Method t/A.c:()V"⟩, some ⟨"return", [], none⟩,
    some ⟨"invokestatic", [], some "// Method t/A.d:()V"⟩, some ⟨"goto", ["3"], none⟩]⟩

/-- The graph of `sideBody`. -/
def sideGraph : MethodGraph where
  nodes := #[some ⟨some 1, .branch [6]⟩, some ⟨some 2, .call ⟨some "t/A", "x:()V"⟩⟩,
    some ⟨some 3, .call ⟨some "t/A", "a:()V"⟩⟩, some ⟨some 4, .branch [1]⟩,
    some ⟨some 5, .call ⟨some "t/A", "c:()V"⟩⟩, some ⟨some 6, .ret⟩,
    some ⟨some 3, .call ⟨some "t/A", "d:()V"⟩⟩, some ⟨some 8, .jump 3⟩, some ⟨none, .ret⟩]
  start := 0
  mergePoints := [1, 3]

/-- The search from the start of `sideBody`. -/
def sideSearch : Search :=
  ⟨SignatureTable.empty.insert loopMethod sideGraph, commonObjectMethods, forkOptions, loopMethod,
    none⟩

/-- The path that enters the loop at its start finds the two calls of the loop. The one that enters
it at its end comes to them with one more mark and could not go on behind them, but it is only cut
there, so that nothing is lost. -/
theorem ngrams_undisputed_side :
    sideSearch.graphs.Compiled ∧ 0 < sideSearch.options.size ∧
      sideSearch.graphs.get? sideSearch.root = some sideGraph ∧ sideSearch.start = none ∧
      ∃ found all, ngrams sideSearch.graphs commonObjectMethods forkOptions loopMethod =
          .ok found ∧
        exhaustiveNgrams sideSearch.graphs commonObjectMethods forkOptions loopMethod = .ok all ∧
        found.size = 4 ∧ ∀ ngram, ngram ∈ found.toList ↔ ngram ∈ all.toList := by
  have hcompile : sideBody.compile none false loopMethod = .ok sideGraph := by decide +kernel
  have hcompiled : sideSearch.graphs.Compiled :=
    GraphTable.compiled_empty.insert (MethodGraph.compiled_of_compile hcompile) loopMethod
  have hroot : sideSearch.graphs.get? sideSearch.root = some sideGraph := by decide +kernel
  have hsize : (ngrams sideSearch.graphs commonObjectMethods forkOptions loopMethod).map
      NgramSet.size = .ok 4 := by
    decide +kernel
  have hcheck : sideSearch.checkFinders 20 (sideSearch.opening sideGraph sideGraph.start)
      (sideSearch.opening sideGraph sideGraph.start) = .ok true := by
    decide +kernel
  obtain ⟨found, all, hfound, hall, hsub, -, -, hsuper⟩ :=
    ngrams_undisputed hcompiled (by decide : 0 < sideSearch.options.size) hroot rfl
  have hno := hsuper fun task finder ngram => Search.noLessFree_of_checkFinders rfl hcheck
  rw [show ngrams sideSearch.graphs commonObjectMethods forkOptions loopMethod = .ok found
    from hfound] at hsize
  exact ⟨hcompiled, by decide, hroot, rfl, found, all, hfound, hall, Except.ok.inj hsize,
    fun ngram => ⟨hsub ngram, hno ngram⟩⟩

end CallNgrams
