import CallNgrams.Proofs.Search.Follow
import CallNgrams.Proofs.Search.NgramSet

/-!
# What a path of the search can do

A path enters the program point that it has arrived at and goes on from there. `Leads` lists all
ways to go on, and every n-gram that a search adds is the window of a path that makes a call. So
what holds of all paths, from one program point to the next, holds of every n-gram that is found.
-/

namespace CallNgrams

namespace Search

variable {search : Search} {walk entered : Walk} {node : Node} {task : Task} {tasks : List Task}
  {found found' : NgramSet} {depth : Nat} {target : CallTarget} {next : Option Nat}

/-! ## Entering a program point -/

/-- What entering a merge point costs. -/
def toll (search : Search) (walk : Walk) : Nat :=
  if search.options.countSurface || !walk.callers.isEmpty then 1 else 0

/-- The walk that has marked the visited program point and paid for it. -/
def marked (search : Search) (walk : Walk) : Walk :=
  { walk with
    activation := { walk.activation with marks := walk.index :: walk.activation.marks }
    budget := walk.budget - search.toll walk }

/-- A path enters a program point that is not a merge point, or one that its activation has not
entered before and that it can pay for. -/
theorem enter?_eq_some_iff : search.enter? walk = some entered ↔
    (walk.activation.graph.isMergePoint walk.index = false ∧ entered = walk) ∨
      (walk.activation.graph.isMergePoint walk.index = true ∧
        walk.index ∉ walk.activation.marks ∧ search.toll walk ≤ walk.budget ∧
        entered = search.marked walk) := by
  unfold enter? marked toll
  cases hpoint : walk.activation.graph.isMergePoint walk.index with
  | false => simp [eq_comm (a := walk)]
  | true =>
    by_cases hmark : walk.index ∈ walk.activation.marks
    · simp [hmark]
    · cases hpay : search.options.countSurface || !walk.callers.isEmpty with
      | false => simp [hmark, eq_comm (b := entered)]
      | true =>
        by_cases hbudget : walk.budget = 0
        · simp [hmark, hbudget]
        · simp [hmark, hbudget, Nat.one_le_iff_ne_zero, eq_comm (b := entered)]

/-- Entering a program point changes nothing but the marks and the budget. -/
structure Entered (walk entered : Walk) : Prop where
  index : entered.index = walk.index
  method : entered.activation.method = walk.activation.method
  graph : entered.activation.graph = walk.activation.graph
  callers : entered.callers = walk.callers
  gram : entered.gram = walk.gram

/-- A path that enters a program point changes nothing else. -/
theorem entered_of_enter? (h : search.enter? walk = some entered) : Entered walk entered := by
  rcases enter?_eq_some_iff.mp h with ⟨-, rfl⟩ | ⟨-, -, -, rfl⟩
  · exact ⟨rfl, rfl, rfl, rfl, rfl⟩
  · exact ⟨rfl, rfl, rfl, rfl, rfl⟩

/-! ## Going on from a program point -/

/-- The period that a gram ends with twice, unless repetitions are allowed. -/
def period? (search : Search) (gram : Gram) : Option Nat :=
  if search.options.allowRepetitive then none else gram.shortestRepeat? search.options.size

/-- The gram of a path that has made a call, with a repetition that the call completes. -/
def called (walk : Walk) (target : CallTarget) : Gram :=
  walk.gram.push ⟨target, walk.frame⟩

/-- The gram that a path goes on with behind a call. -/
def grown (search : Search) (walk : Walk) (target : CallTarget) : Gram :=
  (search.period? (called walk target)).elim (called walk target) (called walk target).dropLast

theorem grown_of_allowRepetitive (hallow : search.options.allowRepetitive = true)
    (walk : Walk) (target : CallTarget) : search.grown walk target = called walk target := by
  rw [grown, period?, if_pos hallow, Option.elim_none]

/-- The ways in which a path goes on from a program point that it has entered. -/
inductive Leads (search : Search) (walk : Walk) (node : Node) : Walk → Prop where
  /-- The method returns to the innermost caller. -/
  | back {caller : Suspended} {callers : List Suspended} {site : Node} {dest : Nat} :
      node.command = .ret → walk.callers = caller :: callers →
      caller.activation.graph.node? caller.site = some site → site.next = some dest →
      Leads search walk node ⟨dest, caller.activation, callers, walk.budget, walk.gram⟩
  | jump {dest : Nat} : node.command = .jump dest →
      Leads search walk node { walk with index := dest }
  | decline {targets : List Nat} {dest : Nat} : node.command = .branch targets →
      node.next = some dest → Leads search walk node { walk with index := dest }
  | choose {targets : List Nat} {dest : Nat} : node.command = .branch targets → dest ∈ targets →
      Leads search walk node
        { walk with index := dest, gram := walk.gram.keepLast search.options.size }
  /-- A method that a call can lead to is entered. -/
  | into {target : CallTarget} {method : MethodKey} {graph : MethodGraph} :
      node.command = .call target → 0 < walk.budget → search.isDug target walk.gram = true →
      walk.isRunning target.signature = false → method.signature = target.signature →
      (∀ owner, target.owner = some owner → method.owner = owner) →
      search.graphs.get? method = some graph →
      Leads search walk node (search.callee walk method graph)
  /-- The path goes on behind a call. -/
  | past {target : CallTarget} {dest : Nat} : node.command = .call target →
      node.next = some dest →
      Leads search walk node { walk with index := dest, gram := search.grown walk target }

/-- A walk that enters a called method is a way to go on. -/
theorem leads_of_mem_callees {callee : Walk} (hc : node.command = .call target)
    (h : callee ∈ search.callees walk target) : search.Leads walk node callee := by
  rw [callees] at h
  split at h
  · cases h
  case isFalse hnot =>
    obtain ⟨owner, howner, hget⟩ := List.mem_filterMap.mp h
    obtain ⟨graph, hgraph, rfl⟩ := Option.map_eq_some_iff.mp hget
    simp only [Bool.or_eq_true, beq_iff_eq, Bool.not_eq_true', not_or] at hnot
    obtain ⟨⟨⟨-, hbudget⟩, hdug⟩, hrunning⟩ := hnot
    refine .into hc (Nat.pos_of_ne_zero hbudget) (by simpa using hdug) (by simpa using hrunning)
      rfl (fun owner' howner' => ?_) hgraph
    rw [candidates, howner'] at howner
    simpa using (List.mem_filter.mp howner).2

theorem goTo_eq_ok {walk' : Walk} (h : walk.goTo next = .ok walk') :
    ∃ dest, next = some dest ∧ walk' = { walk with index := dest } := by
  cases next with
  | none => cases h
  | some dest => exact ⟨dest, rfl, (Except.ok.inj h).symm⟩

/-- A path that returns goes on behind the call of its caller. -/
theorem mem_returns {walks : List Walk} (h : search.returns walk = .ok walks) {walk' : Walk}
    (hw : walk' ∈ walks) (hc : node.command = .ret) : search.Leads walk node walk' := by
  rw [returns] at h
  split at h
  · obtain rfl := Except.ok.inj h
    cases hw
  · split at h
    · obtain rfl := Except.ok.inj h
      cases hw
    case h_2 caller callers hcallers =>
      obtain ⟨behind, hbehind, rfl⟩ := exists_of_map_eq_ok h
      obtain rfl := List.mem_singleton.mp hw
      rw [continueIn] at hbehind
      split at hbehind
      · cases hbehind
      case h_2 site hsite =>
        split at hbehind
        · cases hbehind
        case h_2 dest hdest =>
          obtain rfl := Except.ok.inj hbehind
          exact .back hc hcallers hsite hdest

/-- A path goes on at one of the targets of a branch or behind it. -/
theorem mem_choices {walks : List Walk} {targets : List Nat}
    (h : search.choices walk targets node.next = .ok walks) {walk' : Walk} (hw : walk' ∈ walks)
    (hc : node.command = .branch targets) : search.Leads walk node walk' := by
  obtain ⟨straight, hstraight, h⟩ := exists_of_bind_eq_ok h
  obtain ⟨dest, hdest, rfl⟩ := goTo_eq_ok hstraight
  obtain rfl := Except.ok.inj h
  rcases List.mem_cons.mp hw with rfl | hw
  · exact .decline hc hdest
  · split at hw
    · cases hw
    · obtain ⟨dest, hdest, rfl⟩ := List.mem_map.mp hw
      exact .choose hc (List.mem_reverse.mp hdest)

/-- Behind an arrival a path goes on from the entered program point, or makes the call there. -/
theorem mem_expand (h : search.expand walk = .ok tasks) (htask : task ∈ tasks) :
    ∃ node entered, walk.activation.graph.node? walk.index = some node ∧
      search.enter? walk = some entered ∧
      ((∃ walk', task = .arrive walk' ∧ search.Leads entered node walk') ∨
        ∃ target, node.command = .call target ∧ task = .emit entered target node.next) := by
  rw [expand] at h
  split at h
  · cases h
  case h_2 node hnode =>
    split at h
    · obtain rfl := Except.ok.inj h
      cases htask
    case h_2 entered hentered =>
      refine ⟨node, entered, hnode, hentered, ?_⟩
      split at h
      case h_1 hc =>
        obtain ⟨walks, hwalks, rfl⟩ := exists_of_map_eq_ok h
        obtain ⟨walk', hw, rfl⟩ := List.mem_map.mp htask
        exact .inl ⟨walk', rfl, mem_returns hwalks hw hc⟩
      case h_2 =>
        obtain rfl := Except.ok.inj h
        cases htask
      case h_3 dest hc =>
        obtain rfl := Except.ok.inj h
        obtain rfl := List.mem_singleton.mp htask
        exact .inl ⟨_, rfl, .jump hc⟩
      case h_4 targets hc =>
        obtain ⟨walks, hwalks, rfl⟩ := exists_of_map_eq_ok h
        obtain ⟨walk', hw, rfl⟩ := List.mem_map.mp htask
        exact .inl ⟨walk', rfl, mem_choices hwalks hw hc⟩
      case h_5 target hc =>
        obtain rfl := Except.ok.inj h
        rcases List.mem_append.mp htask with htask | htask
        · obtain ⟨walk', hw, rfl⟩ := List.mem_map.mp htask
          exact .inl ⟨walk', rfl, leads_of_mem_callees hc hw⟩
        · exact .inr ⟨target, hc, List.mem_singleton.mp htask⟩

section Tasks

variable {dest : Nat} {targets : List Nat}
  (hnode : walk.activation.graph.node? walk.index = some node)
  (henter : search.enter? walk = some entered) (h : search.expand walk = .ok tasks)

include hnode henter h

theorem mem_expand_jump (hc : node.command = .jump dest) :
    .arrive { entered with index := dest } ∈ tasks := by
  simp only [expand, hnode, henter, hc] at h
  obtain rfl := Except.ok.inj h
  exact List.mem_singleton_self _

theorem mem_expand_decline (hc : node.command = .branch targets) (hnext : node.next = some dest) :
    .arrive { entered with index := dest } ∈ tasks := by
  simp only [expand, hnode, henter, hc, hnext] at h
  obtain rfl := Except.ok.inj h
  exact List.mem_cons_self

/-- The targets of a branch are followed unless the search keeps to fallthroughs. -/
theorem mem_expand_choose (hc : node.command = .branch targets)
    (hbranch : search.options.noBranch = false) (hdest : dest ∈ targets) :
    .arrive { entered with
      index := dest, gram := entered.gram.keepLast search.options.size } ∈ tasks := by
  simp only [expand, hnode, henter, hc, choices, hbranch] at h
  cases hnext : node.next with
  | none =>
    rw [hnext] at h
    cases h
  | some next =>
    rw [hnext] at h
    obtain rfl := Except.ok.inj h
    refine List.mem_map_of_mem (List.mem_cons_of_mem _ ?_)
    exact List.mem_map_of_mem (List.mem_reverse.mpr hdest)

/-- A path makes a call after its callees have been followed. -/
theorem mem_expand_call (hc : node.command = .call target) :
    .emit entered target node.next ∈ tasks := by
  simp only [expand, hnode, henter, hc] at h
  obtain rfl := Except.ok.inj h
  exact List.mem_append_right _ (List.mem_singleton_self _)

end Tasks

/-! ## Making a call -/

/-- An n-gram belongs to a search if its first call is made in the starting method, and at the index
that is required there. -/
theorem isForeign_eq_false_iff {item : GramItem} :
    search.isForeign item = false ↔ item.frame.depth = 0 ∧ ∀ index, search.start = some index →
      item.frame.point.method = search.root → item.frame.point.index = index := by
  rw [isForeign, isForeignAt]
  cases search.start with
  | none => simp
  | some index => simp [and_comm]

/-- What becomes of a path that makes a call. -/
inductive Emission (search : Search) (walk : Walk) (target : CallTarget) (next : Option Nat)
    (found : NgramSet) : NgramSet → List Task → Prop where
  /-- The call completes a repetition, or is not yet the last of an n-gram. -/
  | passed {dest : Nat} : next = some dest →
      (search.period? (called walk target) = none →
        (called walk target).window? search.options.size = none) →
      Emission search walk target next found found
        [.arrive { walk with index := dest, gram := search.grown walk target }]
  /-- The path ends at an n-gram that is foreign or already found. -/
  | cut {ngram : Ngram} : search.period? (called walk target) = none →
      (called walk target).window? search.options.size = some ngram →
      search.isForeign ngram.head = true ∨ ngram ∈ found.toList →
      Emission search walk target next found found []
  /-- A new n-gram is found. -/
  | stored {ngram : Ngram} {dest : Nat} : search.period? (called walk target) = none →
      (called walk target).window? search.options.size = some ngram →
      search.isForeign ngram.head = false → next = some dest →
      Emission search walk target next found (found.insert ngram)
        [.arrive { walk with index := dest, gram := search.grown walk target }]

/-- Making a call has one of the outcomes that `Emission` lists. -/
theorem emission_of_emit (h : search.emit walk target next found = .ok (found', tasks)) :
    search.Emission walk target next found found' tasks := by
  have hcalled : walk.gram.push ⟨target, walk.frame⟩ = called walk target := rfl
  have hperiod? : (if search.options.allowRepetitive then none
      else (called walk target).shortestRepeat? search.options.size) =
        search.period? (called walk target) := rfl
  simp only [emit, hcalled, hperiod?] at h
  cases hperiod : search.period? (called walk target) with
  | some period =>
    have hgrown : search.grown walk target = (called walk target).dropLast period := by
      rw [grown, hperiod, Option.elim_some]
    simp only [hperiod, ← hgrown] at h
    obtain ⟨walk', hwalk', h⟩ := exists_of_bind_eq_ok h
    obtain ⟨dest, rfl, rfl⟩ := goTo_eq_ok hwalk'
    obtain ⟨rfl, rfl⟩ := Prod.mk.inj (Except.ok.inj h)
    refine .passed rfl fun hnone => ?_
    rw [hperiod] at hnone
    cases hnone
  | none =>
    have hgrown : search.grown walk target = called walk target := by
      rw [grown, hperiod, Option.elim_none]
    simp only [hperiod] at h
    split at h
    case h_1 hwindow =>
      obtain ⟨walk', hwalk', h⟩ := exists_of_bind_eq_ok h
      obtain ⟨dest, rfl, rfl⟩ := goTo_eq_ok hwalk'
      obtain ⟨rfl, rfl⟩ := Prod.mk.inj (Except.ok.inj h)
      rw [← hgrown]
      exact .passed rfl fun _ => hwindow
    case h_2 ngram hwindow =>
      split at h
      case isTrue hend =>
        obtain ⟨rfl, rfl⟩ := Prod.mk.inj (Except.ok.inj h)
        rw [Bool.or_eq_true, NgramSet.contains_iff] at hend
        exact .cut hperiod hwindow hend
      case isFalse hgo =>
        obtain ⟨walk', hwalk', h⟩ := exists_of_bind_eq_ok h
        obtain ⟨dest, rfl, rfl⟩ := goTo_eq_ok hwalk'
        obtain ⟨rfl, rfl⟩ := Prod.mk.inj (Except.ok.inj h)
        rw [Bool.or_eq_true, not_or, Bool.not_eq_true] at hgo
        rw [← hgrown]
        exact .stored hperiod hwindow hgo.1 rfl

/-- Making a call succeeds where control can fall through. -/
theorem exists_emit (search : Search) (walk : Walk) (target : CallTarget) (dest : Nat)
    (found : NgramSet) :
    ∃ found' tasks, search.emit walk target (some dest) found = .ok (found', tasks) := by
  simp only [emit]
  split
  · exact ⟨_, _, rfl⟩
  · split
    · exact ⟨_, _, rfl⟩
    · split
      · exact ⟨_, _, rfl⟩
      · exact ⟨_, _, rfl⟩

/-! ## Following tasks -/

/-- A task is performed, and the tasks that it leads to are followed in order. -/
theorem explore_succ (search : Search) (depth : Nat) (task : Task) (found : NgramSet) :
    search.explore (depth + 1) task found =
      (search.perform task found >>= fun result =>
        result.2.foldlM (fun found task => search.explore depth task found) result.1) :=
  follow_succ _ _ _ _ _

/-- A search that ends within a depth has the same result with every higher one. -/
theorem explore_mono {deeper : Nat} (hle : depth ≤ deeper)
    (h : search.explore depth task found = .ok found') :
    search.explore deeper task found = .ok found' :=
  follow_mono hle h

/-- A search ends if each task succeeds and only leads to tasks of a lower rank. -/
theorem exists_explore_ok {P : Task → Prop} {rank : Task → Nat}
    (hstep : ∀ task found, P task → ∃ found' tasks,
      search.perform task found = .ok (found', tasks) ∧
        ∀ task' ∈ tasks, P task' ∧ rank task' < rank task)
    (htask : P task) (hdepth : rank task < depth) :
    ∃ found', search.explore depth task found = .ok found' := by
  induction depth generalizing task found with
  | zero => omega
  | succ depth ih =>
    obtain ⟨found', tasks, hperform, htasks⟩ := hstep task found htask
    rw [explore_succ, hperform]
    refine exists_foldlM_ok tasks found' fun task' hmem found => ?_
    obtain ⟨hp, hrank⟩ := htasks task' hmem
    exact ih hp (by omega)

/-- A task takes no n-gram away. -/
theorem mem_perform (h : search.perform task found = .ok (found', tasks)) {ngram : Ngram}
    (hngram : ngram ∈ found.toList) : ngram ∈ found'.toList := by
  cases task with
  | arrive walk =>
    obtain ⟨tasks', -, heq⟩ := exists_of_map_eq_ok h
    obtain ⟨rfl, rfl⟩ := Prod.mk.inj heq
    exact hngram
  | emit walk target next =>
    cases emission_of_emit h with
    | passed => exact hngram
    | cut => exact hngram
    | stored => exact NgramSet.mem_insert.mpr (.inr hngram)

/-- N-grams that are found stay found. -/
theorem mem_explore (h : search.explore depth task found = .ok found') {ngram : Ngram}
    (hngram : ngram ∈ found.toList) : ngram ∈ found'.toList :=
  follow_keeps (P := fun set => ngram ∈ set.toList)
    (fun hset hperform => mem_perform hperform hset) hngram h

theorem mem_foldlM_explore {ngram : Ngram} (h : tasks.foldlM
      (fun found task => search.explore depth task found) found = .ok found')
    (hngram : ngram ∈ found.toList) : ngram ∈ found'.toList :=
  foldlM_keeps (P := fun set => ngram ∈ set.toList)
    (fun _ _ _ _ hset hrun => mem_explore hrun hset) hngram h

/-- A property of paths that arrive and one of paths that have entered a program point, which hold
of a path from one program point to the next. -/
structure PathInvariant (search : Search) (arrives : Walk → Prop) (enters : Walk → Node → Prop) :
    Prop where
  enter {walk entered : Walk} {node : Node} : arrives walk →
    walk.activation.graph.node? walk.index = some node → search.enter? walk = some entered →
    enters entered node
  lead {walk walk' : Walk} {node : Node} : enters walk node → search.Leads walk node walk' →
    arrives walk'

/-- The path of a task has the property of its kind. -/
inductive OnPath (arrives : Walk → Prop) (enters : Walk → Node → Prop) : Task → Prop where
  | arrive {walk : Walk} : arrives walk → OnPath arrives enters (.arrive walk)
  | emit {walk : Walk} {node : Node} {target : CallTarget} : enters walk node →
      node.command = .call target → OnPath arrives enters (.emit walk target node.next)

/-- An n-gram is the window of a path that makes a call and goes on. -/
def Windowed (search : Search) (enters : Walk → Node → Prop) (ngram : Ngram) : Prop :=
  ∃ walk node target dest, enters walk node ∧ node.command = .call target ∧
    node.next = some dest ∧ search.period? (called walk target) = none ∧
    (called walk target).window? search.options.size = some ngram ∧
    search.isForeign ngram.head = false

namespace PathInvariant

variable {arrives : Walk → Prop} {enters : Walk → Node → Prop}

/-- Performing a task keeps the properties of its path and only adds windows of paths that have
them. -/
theorem perform (inv : search.PathInvariant arrives enters) (htask : OnPath arrives enters task)
    (h : search.perform task found = .ok (found', tasks)) :
    (∀ task' ∈ tasks, OnPath arrives enters task') ∧
      ∀ ngram ∈ found'.toList, ngram ∈ found.toList ∨ search.Windowed enters ngram := by
  cases htask with
  | @arrive walk harrives =>
    obtain ⟨tasks', hexpand, heq⟩ := exists_of_map_eq_ok h
    obtain ⟨rfl, rfl⟩ := Prod.mk.inj heq
    refine ⟨fun task' hmem => ?_, fun ngram => .inl⟩
    obtain ⟨node, entered, hnode, hentered, hgo⟩ := mem_expand hexpand hmem
    have henters := inv.enter harrives hnode hentered
    rcases hgo with ⟨walk', rfl, hleads⟩ | ⟨target, hcall, rfl⟩
    · exact .arrive (inv.lead henters hleads)
    · exact .emit henters hcall
  | @emit walk node target henters hcall =>
    have hgo : ∀ {dest}, node.next = some dest → ∀ task' ∈ [Task.arrive { walk with
        index := dest, gram := search.grown walk target }], OnPath arrives enters task' := by
      intro dest hnext task' hmem
      obtain rfl := List.mem_singleton.mp hmem
      exact .arrive (inv.lead henters (.past hcall hnext))
    cases emission_of_emit h with
    | passed hnext _ => exact ⟨hgo hnext, fun ngram => .inl⟩
    | cut => exact ⟨fun _ hmem => absurd hmem List.not_mem_nil, fun ngram => .inl⟩
    | @stored ngram dest hperiod hwindow hforeign hnext =>
      refine ⟨hgo hnext, fun other hother => ?_⟩
      rcases NgramSet.mem_insert.mp hother with rfl | hother
      · exact .inr ⟨walk, node, target, dest, henters, hcall, hnext, hperiod, hwindow, hforeign⟩
      · exact .inl hother

/-- Every n-gram that a search adds is the window of a path with the properties. -/
theorem explore (inv : search.PathInvariant arrives enters) (htask : OnPath arrives enters task)
    (h : search.explore depth task found = .ok found') {ngram : Ngram}
    (hngram : ngram ∈ found'.toList) : ngram ∈ found.toList ∨ search.Windowed enters ngram := by
  induction depth generalizing task found found' ngram with
  | zero => cases h
  | succ depth ih =>
    rw [explore_succ] at h
    obtain ⟨⟨mid, tasks⟩, hperform, h⟩ := exists_of_bind_eq_ok h
    obtain ⟨htasks, hmid⟩ := inv.perform htask hperform
    have hkeeps : ∀ ngram ∈ found'.toList, ngram ∈ found.toList ∨ search.Windowed enters ngram := by
      refine foldlM_keeps (P := fun set => ∀ ngram ∈ set.toList,
        ngram ∈ found.toList ∨ search.Windowed enters ngram) ?_ hmid h
      intro task' hmem set set' hset hrun ngram hngram
      exact (ih (htasks task' hmem) hrun hngram).elim (hset ngram) .inr
    exact hkeeps ngram hngram

end PathInvariant

end Search

end CallNgrams
