import CallNgrams.Proofs.Search.Termination

/-!
# Exhaustive searches

A search ends a path at an n-gram that has been found before. An exhaustive search does not: it
performs every task as if nothing had been found, and so it follows all paths that the marks, the
budget and the rules for callees leave. What it finds are the n-grams that these paths complete, in
whatever order they are followed.
-/

namespace CallNgrams

open Relation

namespace NgramSet

variable {set new : NgramSet} {ngram : Ngram}

/-- Adds the n-grams of another set. -/
def union (set new : NgramSet) : NgramSet :=
  new.toList.foldl insert set

theorem mem_foldl_insert {ngrams : List Ngram} :
    ngram ∈ (ngrams.foldl insert set).toList ↔ ngram ∈ set.toList ∨ ngram ∈ ngrams := by
  induction ngrams generalizing set with
  | nil => simp
  | cons first ngrams ih =>
    rw [List.foldl_cons, ih, mem_insert, List.mem_cons, or_comm (a := ngram = first), or_assoc]

@[simp] theorem mem_union :
    ngram ∈ (set.union new).toList ↔ ngram ∈ set.toList ∨ ngram ∈ new.toList :=
  mem_foldl_insert

end NgramSet

namespace Search

variable {search : Search} {walk : Walk} {task task' : Task} {tasks : List Task} {depth : Nat}
  {found found' : NgramSet} {target : CallTarget} {next : Option Nat} {ngram other : Ngram}

/-! ## Paths, whatever has been found -/

/-- A path goes on from one task to another. -/
def Continues (search : Search) (task task' : Task) : Prop :=
  ∃ new tasks, search.perform task .empty = .ok (new, tasks) ∧ task' ∈ tasks

/-- A path makes the last call of an n-gram of the search. -/
def Completes (search : Search) (task : Task) (ngram : Ngram) : Prop :=
  ∃ new tasks, search.perform task .empty = .ok (new, tasks) ∧ ngram ∈ new.toList

/-- From where it arrives a path goes on as the graph says. -/
theorem continues_arrive_iff : search.Continues (.arrive walk) task' ↔
    ∃ tasks, search.expand walk = .ok tasks ∧ task' ∈ tasks := by
  constructor
  · rintro ⟨new, tasks, hperform, hmem⟩
    obtain ⟨tasks', hexpand, heq⟩ := exists_of_map_eq_ok hperform
    obtain ⟨rfl, rfl⟩ := Prod.mk.inj heq
    exact ⟨tasks', hexpand, hmem⟩
  · rintro ⟨tasks, hexpand, hmem⟩
    refine ⟨.empty, tasks, ?_, hmem⟩
    rw [perform, hexpand]
    rfl

/-- No n-gram is completed by arriving. -/
theorem not_completes_arrive : ¬search.Completes (.arrive walk) ngram := by
  rintro ⟨new, tasks, hperform, hmem⟩
  obtain ⟨tasks', -, heq⟩ := exists_of_map_eq_ok hperform
  obtain ⟨rfl, rfl⟩ := Prod.mk.inj heq
  exact NgramSet.not_mem_empty hmem

/-- Behind a call a path goes on unless the call completes an n-gram of another search. -/
theorem continues_emit_iff : search.Continues (.emit walk target next) task' ↔
    ∃ dest, next = some dest ∧
      task' = .arrive { walk with index := dest, gram := search.grown walk target } ∧
      ∀ ngram, search.period? (called walk target) = none →
        (called walk target).window? search.options.size = some ngram →
        search.isForeign ngram.head = false := by
  constructor
  · rintro ⟨new, tasks, hperform, hmem⟩
    cases emission_of_emit hperform with
    | cut => cases hmem
    | @passed dest hnext hnone =>
      refine ⟨dest, hnext, List.mem_singleton.mp hmem, fun ngram hperiod hwindow => ?_⟩
      rw [hnone hperiod] at hwindow
      cases hwindow
    | @stored ngram dest _ hwindow hforeign hnext =>
      refine ⟨dest, hnext, List.mem_singleton.mp hmem, fun other _ hother => ?_⟩
      obtain rfl := Option.some.inj (hwindow.symm.trans hother)
      exact hforeign
  · rintro ⟨dest, rfl, rfl, hown⟩
    obtain ⟨new, tasks, hemit⟩ := search.exists_emit walk target dest .empty
    refine ⟨new, tasks, hemit, ?_⟩
    cases emission_of_emit hemit with
    | passed hnext | stored _ _ _ hnext =>
      obtain rfl := Option.some.inj hnext
      exact List.mem_singleton_self _
    | cut hperiod hwindow hend =>
      rcases hend with hforeign | hfound
      · rw [hown _ hperiod hwindow] at hforeign
        cases hforeign
      · exact absurd hfound NgramSet.not_mem_empty

/-- A call completes the n-gram that its path ends with then, if the n-gram belongs to the search
and the path drops no repetition. -/
theorem completes_emit_iff : search.Completes (.emit walk target next) ngram ↔
    next.isSome ∧ search.period? (called walk target) = none ∧
      (called walk target).window? search.options.size = some ngram ∧
      search.isForeign ngram.head = false := by
  constructor
  · rintro ⟨new, tasks, hperform, hmem⟩
    cases emission_of_emit hperform with
    | passed | cut => exact absurd hmem NgramSet.not_mem_empty
    | stored hperiod hwindow hforeign hnext =>
      obtain rfl := (NgramSet.mem_insert.mp hmem).resolve_right NgramSet.not_mem_empty
      exact ⟨hnext ▸ rfl, hperiod, hwindow, hforeign⟩
  · rintro ⟨hnext, hperiod, hwindow, hforeign⟩
    obtain ⟨dest, rfl⟩ := Option.isSome_iff_exists.mp hnext
    obtain ⟨new, tasks, hemit⟩ := search.exists_emit walk target dest .empty
    refine ⟨new, tasks, hemit, ?_⟩
    cases emission_of_emit hemit with
    | passed _ hnone =>
      rw [hnone hperiod] at hwindow
      cases hwindow
    | cut _ hother hend =>
      obtain rfl := Option.some.inj (hwindow.symm.trans hother)
      rcases hend with hend | hfound
      · rw [hforeign] at hend
        cases hend
      · exact absurd hfound NgramSet.not_mem_empty
    | stored _ hother =>
      obtain rfl := Option.some.inj (hwindow.symm.trans hother)
      exact NgramSet.mem_insert.mpr (.inl rfl)

/-- A path completes at most one n-gram with a call. -/
theorem Completes.unique (h : search.Completes task ngram) (hother : search.Completes task other) :
    ngram = other := by
  cases task with
  | arrive walk => exact absurd h not_completes_arrive
  | emit walk target next =>
    obtain ⟨-, -, hwindow, -⟩ := completes_emit_iff.mp h
    obtain ⟨-, -, hwindow', -⟩ := completes_emit_iff.mp hother
    exact Option.some.inj (hwindow.symm.trans hwindow')

/-- What performing a task comes to. The n-gram that it completes is found then, and all tasks that
its path goes on with are to be followed, unless the n-gram had been found before. -/
structure Performs (search : Search) (task : Task) (found found' : NgramSet) (tasks : List Task) :
    Prop where
  found_iff : ∀ ngram, ngram ∈ found'.toList ↔ ngram ∈ found.toList ∨ search.Completes task ngram
  continues : ∀ task' ∈ tasks, search.Continues task task'
  complete : (∀ task', search.Continues task task' → task' ∈ tasks) ∨
    ∃ ngram ∈ found.toList, search.Completes task ngram

/-- Performing a task depends on what has been found only where its n-gram has. -/
theorem performs_of_perform (h : search.perform task found = .ok (found', tasks)) :
    search.Performs task found found' tasks := by
  cases task with
  | arrive walk =>
    obtain ⟨tasks', hexpand, heq⟩ := exists_of_map_eq_ok h
    obtain ⟨rfl, rfl⟩ := Prod.mk.inj heq
    refine ⟨fun ngram => ?_, fun task' hmem => continues_arrive_iff.mpr ⟨_, hexpand, hmem⟩,
      .inl fun task' hgo => ?_⟩
    · simp [not_completes_arrive]
    · obtain ⟨tasks'', hexpand', hmem⟩ := continues_arrive_iff.mp hgo
      obtain rfl := Except.ok.inj (hexpand.symm.trans hexpand')
      exact hmem
  | emit walk target next =>
    have honly : ∀ {dest}, next = some dest → ∀ task', search.Continues (.emit walk target next)
        task' → task' ∈ [Task.arrive { walk with
          index := dest, gram := search.grown walk target }] := by
      rintro dest rfl task' hgo
      obtain ⟨dest', hdest, rfl, -⟩ := continues_emit_iff.mp hgo
      obtain rfl := Option.some.inj hdest
      exact List.mem_singleton_self _
    cases emission_of_emit h with
    | @passed dest hnext hnone =>
      have hnot : ∀ ngram, ¬search.Completes (.emit walk target next) ngram := by
        intro ngram hcompletes
        obtain ⟨-, hperiod, hwindow, -⟩ := completes_emit_iff.mp hcompletes
        rw [hnone hperiod] at hwindow
        cases hwindow
      refine ⟨fun ngram => ?_, List.forall_mem_singleton.mpr ?_, .inl (honly hnext)⟩
      · simp [hnot ngram]
      · refine continues_emit_iff.mpr ⟨dest, hnext, rfl, fun ngram hperiod hwindow => ?_⟩
        rw [hnone hperiod] at hwindow
        cases hwindow
    | @cut ngram hperiod hwindow hend =>
      -- Nothing is lost at a foreign n-gram, and one that had been found before stays found.
      have hfound : ∀ other, search.Completes (.emit walk target next) other →
          other ∈ found.toList := by
        intro other hcompletes
        obtain ⟨-, -, hwindow', hforeign⟩ := completes_emit_iff.mp hcompletes
        obtain rfl := Option.some.inj (hwindow.symm.trans hwindow')
        refine hend.resolve_left fun hend => ?_
        rw [hforeign] at hend
        cases hend
      refine ⟨fun other => ⟨.inl, fun hother => hother.elim id (hfound other)⟩,
        List.forall_mem_nil _, ?_⟩
      by_cases hcompletes : search.Completes (.emit walk target next) ngram
      · exact .inr ⟨ngram, hfound ngram hcompletes, hcompletes⟩
      · refine .inl fun task' hgo => absurd (completes_emit_iff.mpr ?_) hcompletes
        obtain ⟨dest, rfl, -, hown⟩ := continues_emit_iff.mp hgo
        exact ⟨rfl, hperiod, hwindow, hown ngram hperiod hwindow⟩
    | @stored ngram dest hperiod hwindow hforeign hnext =>
      have hcompletes : search.Completes (.emit walk target next) ngram :=
        completes_emit_iff.mpr ⟨hnext ▸ rfl, hperiod, hwindow, hforeign⟩
      refine ⟨fun other => ?_, List.forall_mem_singleton.mpr ?_, .inl (honly hnext)⟩
      · rw [NgramSet.mem_insert, or_comm]
        refine or_congr_right ⟨fun heq => heq ▸ hcompletes, fun hother => hother.unique hcompletes⟩
      · refine continues_emit_iff.mpr ⟨dest, hnext, rfl, fun other _ hother => ?_⟩
        obtain rfl := Option.some.inj (hwindow.symm.trans hother)
        exact hforeign

/-- A property of paths holds of every task that a path comes to. -/
theorem PathInvariant.continues {arrives : Walk → Prop} {enters : Walk → Node → Prop}
    (inv : search.PathInvariant arrives enters) (htask : OnPath arrives enters task)
    (h : ReflTransGen search.Continues task task') : OnPath arrives enters task' := by
  induction h with
  | refl => exact htask
  | tail _ hgo ih =>
    obtain ⟨new, tasks, hperform, hmem⟩ := hgo
    exact (inv.perform ih hperform).1 _ hmem

/-- Properties that paths keep are kept together. -/
theorem PathInvariant.and {arrives arrives' : Walk → Prop} {enters enters' : Walk → Node → Prop}
    (inv : search.PathInvariant arrives enters) (inv' : search.PathInvariant arrives' enters') :
    search.PathInvariant (fun walk => arrives walk ∧ arrives' walk)
      (fun walk node => enters walk node ∧ enters' walk node) where
  enter h hnode henter := ⟨inv.enter h.1 hnode henter, inv'.enter h.2 hnode henter⟩
  lead h hleads := ⟨inv.lead h.1 hleads, inv'.lead h.2 hleads⟩

/-! ## Following all paths -/

/-- Follows a task and all that it leads to, down to a depth, also behind n-grams that have been
found before. -/
def exhaust (search : Search) : Nat → Task → NgramSet → Except Error NgramSet
  | 0, _, _ => .error (.unboundedSearch search.root)
  | depth + 1, task, found => do
    let result ← search.perform task .empty
    result.2.foldlM (fun found task => search.exhaust depth task found) (found.union result.1)

/-- Some path from a task completes an n-gram. -/
def Yields (search : Search) (task : Task) (ngram : Ngram) : Prop :=
  ∃ last, ReflTransGen search.Continues task last ∧ search.Completes last ngram

/-- A loop that adds n-grams in each round adds those of all rounds. -/
theorem mem_foldlM_iff {step : NgramSet → Task → Except Error NgramSet} {adds : Task → Prop}
    (hstep : ∀ task ∈ tasks, ∀ set set', step set task = .ok set' →
      (ngram ∈ set'.toList ↔ ngram ∈ set.toList ∨ adds task))
    (h : tasks.foldlM step found = .ok found') :
    ngram ∈ found'.toList ↔ ngram ∈ found.toList ∨ ∃ task ∈ tasks, adds task := by
  induction tasks generalizing found with
  | nil =>
    obtain rfl : found = found' := Except.ok.inj h
    simp
  | cons task tasks ih =>
    obtain ⟨mid, hmid, hrest⟩ := foldlM_cons_eq_ok h
    rw [ih (fun task' hmem => hstep task' (List.mem_cons_of_mem _ hmem)) hrest,
      hstep task List.mem_cons_self found mid hmid, or_assoc, List.exists_mem_cons_iff]

/-- An exhaustive search finds what the paths from its task complete. -/
theorem mem_exhaust_iff (h : search.exhaust depth task found = .ok found') :
    ngram ∈ found'.toList ↔ ngram ∈ found.toList ∨ search.Yields task ngram := by
  induction depth generalizing task found found' with
  | zero => cases h
  | succ depth ih =>
    obtain ⟨⟨new, tasks⟩, hperform, h⟩ := exists_of_bind_eq_ok h
    rw [mem_foldlM_iff (fun task' _ set set' hrun => ih hrun) h, NgramSet.mem_union, or_assoc]
    refine or_congr_right ⟨?_, ?_⟩
    · rintro (hnew | ⟨task', hmem, last, hpath, hlast⟩)
      · exact ⟨task, .refl, new, tasks, hperform, hnew⟩
      · exact ⟨last, .head ⟨new, tasks, hperform, hmem⟩ hpath, hlast⟩
    · rintro ⟨last, hpath, hlast⟩
      rcases hpath.cases_head with rfl | ⟨task', ⟨new', tasks', hperform', hmem⟩, hpath⟩
      · obtain ⟨new', tasks', hperform', hmem⟩ := hlast
        obtain ⟨rfl, rfl⟩ := Prod.mk.inj (Except.ok.inj (hperform.symm.trans hperform'))
        exact .inl hmem
      · obtain ⟨rfl, rfl⟩ := Prod.mk.inj (Except.ok.inj (hperform.symm.trans hperform'))
        exact .inr ⟨task', hmem, last, hpath, hlast⟩

/-- An exhaustive search ends if each task succeeds and only leads to tasks of a lower rank. -/
theorem exists_exhaust_ok {P : Task → Prop} {rank : Task → Nat}
    (hstep : ∀ task, P task → ∃ new tasks, search.perform task .empty = .ok (new, tasks) ∧
      ∀ task' ∈ tasks, P task' ∧ rank task' < rank task)
    (htask : P task) (hdepth : rank task < depth) :
    ∃ found', search.exhaust depth task found = .ok found' := by
  induction depth generalizing task found with
  | zero => omega
  | succ depth ih =>
    obtain ⟨new, tasks, hperform, htasks⟩ := hstep task htask
    rw [exhaust, hperform]
    refine exists_foldlM_ok tasks (found.union new) fun task' hmem found => ?_
    obtain ⟨hp, hrank⟩ := htasks task' hmem
    exact ih hp (by omega)

/-- The task that a search at an index of its starting method begins with. -/
def opening (search : Search) (graph : MethodGraph) (index : Nat) : Task :=
  .arrive ⟨index, ⟨search.root, graph, []⟩, [], search.options.budget, .empty⟩

/-- The paths of a search are grounded where it begins. -/
theorem grounded_opening (search : Search) {graph : MethodGraph} {points index : Nat}
    (hsound : graph.Sound) (hlt : graph.nodes.size < points) (hindex : graph.Reachable index) :
    OnPath (Walk.Grounded points search.options.budget)
      (Walk.GroundedAt points search.options.budget) (search.opening graph index) :=
  .arrive ⟨⟨hsound, hlt, hindex⟩, fun hmem => absurd hmem List.not_mem_nil, Nat.le_refl _⟩

/-- An exhaustive search from a node that control can get to in the starting method ends. -/
theorem exists_exhaust_opening {points : Nat} (hgraphs : search.Enterable points)
    {graph : MethodGraph} (hsound : graph.Sound) (hlt : graph.nodes.size < points) {index : Nat}
    (hindex : graph.Reachable index)
    (hdepth : (search.options.budget + 1) * (2 * points * points) < depth) (found : NgramSet) :
    ∃ found', search.exhaust depth (search.opening graph index) found = .ok found' := by
  exact exists_exhaust_ok (fun task => perform_rank hgraphs .empty)
    (search.grounded_opening hsound hlt hindex)
    (Nat.lt_of_le_of_lt (search.rank_start_le hlt index) hdepth)

end Search

/-- The n-grams of all paths from the start of a method, also of those that lead on from n-grams
that have been found before, down to a depth. -/
def exhaustiveNgramsWithin (depth : Nat) (graphs : GraphTable) (policy : DigPolicy)
    (options : SearchOptions) (root : MethodKey) : Except Error NgramSet := do
  let graph ← startingGraph graphs options root
  let search : Search := ⟨graphs, policy, options, root, none⟩
  search.exhaust depth (search.opening graph graph.start) .empty

/-- The n-grams of all paths from the start of a method, also of those that lead on from n-grams
that have been found before. -/
def exhaustiveNgrams (graphs : GraphTable) (policy : DigPolicy) (options : SearchOptions)
    (root : MethodKey) : Except Error NgramSet :=
  exhaustiveNgramsWithin (depthLimit graphs options) graphs policy options root

section Compiled

variable {graphs : GraphTable} {options : SearchOptions} {root : MethodKey} {graph : MethodGraph}

theorem exhaustiveNgramsWithin_eq {depth : Nat} {policy : DigPolicy} (hsize : 0 < options.size)
    (hroot : graphs.get? root = some graph) :
    exhaustiveNgramsWithin depth graphs policy options root =
      Search.exhaust ⟨graphs, policy, options, root, none⟩ depth
        (Search.opening ⟨graphs, policy, options, root, none⟩ graph graph.start) .empty := by
  rw [exhaustiveNgramsWithin, startingGraph_eq_ok hsize hroot]
  rfl

/-- The exhaustive search of a compiled program ends, and it finds what its paths complete. -/
theorem GraphTable.Compiled.exists_exhaustiveNgrams (hgraphs : graphs.Compiled)
    (policy : DigPolicy) (hsize : 0 < options.size) (hroot : graphs.get? root = some graph) :
    ∃ all, exhaustiveNgrams graphs policy options root = .ok all ∧ ∀ ngram, ngram ∈ all.toList ↔
      Search.Yields ⟨graphs, policy, options, root, none⟩
        (Search.opening ⟨graphs, policy, options, root, none⟩ graph graph.start) ngram := by
  obtain ⟨all, hall⟩ := Search.exists_exhaust_opening (hgraphs.enterable none)
    (hgraphs root graph hroot).sound (Nat.lt_succ_of_le (size_le_pointCount hroot)) .refl
    (searchDepth_lt_depthLimit graphs options) .empty
  refine ⟨all, ?_, fun ngram => ?_⟩
  · rw [exhaustiveNgrams, exhaustiveNgramsWithin_eq hsize hroot]
    exact hall
  · rw [Search.mem_exhaust_iff hall, or_iff_right NgramSet.not_mem_empty]

end Compiled

end CallNgrams
