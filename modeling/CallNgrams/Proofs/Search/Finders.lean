import CallNgrams.Proofs.Search.Exhaustive

/-!
# Where n-grams are found

Among the paths that complete an n-gram, the one that comes first finds it. It is followed further,
and the others end at the n-gram. A search that takes notes goes the same way and writes down the
task at which each n-gram is found.
-/

namespace CallNgrams

open Relation

/-- What a search has found, and at which tasks. -/
structure Notes where
  found : NgramSet
  finds : List (Task × Ngram)

/-- The notes of a search that has not begun. -/
def Notes.empty : Notes := ⟨.empty, []⟩

/-- No n-gram is noted at two tasks, and none that has not been found. -/
structure Notes.Tidy (notes : Notes) : Prop where
  found {task : Task} {ngram : Ngram} : (task, ngram) ∈ notes.finds → ngram ∈ notes.found.toList
  unique {task task' : Task} {ngram : Ngram} : (task, ngram) ∈ notes.finds →
    (task', ngram) ∈ notes.finds → task = task'

theorem Notes.tidy_empty : Notes.empty.Tidy :=
  ⟨fun hfind => absurd hfind List.not_mem_nil, fun hfind => absurd hfind List.not_mem_nil⟩

namespace Search

variable {search : Search} {start task task' : Task} {tasks : List Task} {ngram : Ngram}
  {found : NgramSet} {notes mid notes' : Notes} {depth : Nat} {performed performed' : Task → Prop}
  {finds finds' : List (Task × Ngram)}

/-! ## Taking notes -/

/-- Performs a task and notes the n-grams that it adds. -/
def performNoting (search : Search) (task : Task) (notes : Notes) :
    Except Error (Notes × List Task) :=
  (search.perform task notes.found).map fun result =>
    let new := result.1.toList.filter fun ngram => !notes.found.contains ngram
    (⟨result.1, new.map (Prod.mk task) ++ notes.finds⟩, result.2)

/-- Follows a task and all that it leads to, in order, down to a depth, and takes notes. -/
def exploreNoting (search : Search) : Nat → Task → Notes → Except Error Notes :=
  follow search.performNoting (.unboundedSearch search.root)

/-- The search that begins with a task finds an n-gram at another one. -/
def FindsAt (search : Search) (start task : Task) (ngram : Ngram) : Prop :=
  ∃ depth notes, search.exploreNoting depth start .empty = .ok notes ∧
    (task, ngram) ∈ notes.finds

/-- What performing a task comes to and what is noted then. -/
structure Notices (search : Search) (task : Task) (notes notes' : Notes) (tasks : List Task) :
    Prop extends search.Performs task notes.found notes'.found tasks where
  finds_iff : ∀ other ngram, (other, ngram) ∈ notes'.finds ↔ (other, ngram) ∈ notes.finds ∨
    other = task ∧ search.Completes task ngram ∧ ngram ∉ notes.found.toList

/-- Taking notes does what performing does and notes the n-gram that is new. -/
theorem notices_of_performNoting (h : search.performNoting task notes = .ok (notes', tasks)) :
    search.Notices task notes notes' tasks := by
  obtain ⟨⟨found', tasks'⟩, hperform, heq⟩ := exists_of_map_eq_ok h
  obtain ⟨rfl, rfl⟩ := Prod.mk.inj heq
  have hperforms := performs_of_perform hperform
  refine ⟨hperforms, fun other ngram => ?_⟩
  have hnew : (ngram ∈ found'.toList ∧ ngram ∉ notes.found.toList) ↔
      search.Completes task ngram ∧ ngram ∉ notes.found.toList := by
    rw [hperforms.found_iff]
    exact and_congr_left fun hnot => or_iff_right hnot
  have hfilter : ngram ∈ found'.toList.filter (fun ngram => !notes.found.contains ngram) ↔
      ngram ∈ found'.toList ∧ ngram ∉ notes.found.toList := by
    rw [List.mem_filter, Bool.not_eq_true', ← Bool.not_eq_true, NgramSet.contains_iff]
  rw [List.mem_append, or_comm, List.mem_map]
  refine or_congr_right ?_
  rw [← hnew, ← hfilter]
  constructor
  · rintro ⟨ngram', hmem, heq⟩
    obtain ⟨rfl, rfl⟩ := Prod.mk.inj heq
    exact ⟨rfl, hmem⟩
  · rintro ⟨rfl, hmem⟩
    exact ⟨ngram, hmem, rfl⟩

/-- A search that takes notes finds the same, or fails with the same error. -/
theorem exploreNoting_same (search : Search) (depth : Nat) (task : Task) (notes : Notes) :
    SameOutcome (fun notes found => notes.found = found) (search.exploreNoting depth task notes)
      (search.explore depth task notes.found) := by
  refine (follow_same (P := fun (notes : Notes) found => notes.found = found) (R := fun _ => Eq)
    (E := fun _ _ => True) _ (fun _ => trivial) (fun _ _ => trivial) (fun _ _ _ => id) ?_ depth
    rfl rfl).imp fun _ _ h => h.1
  rintro notes found task _ rfl rfl
  rw [performNoting]
  cases search.perform task notes.found with
  | error e => exact .error e
  | ok result => exact .ok ⟨rfl, trivial, List.forall₂_eq_eq_eq ▸ rfl⟩

/-- Every search can be repeated with notes. -/
theorem exists_exploreNoting (h : search.explore depth task .empty = .ok found) :
    ∃ notes, search.exploreNoting depth task .empty = .ok notes ∧ notes.found = found := by
  have hsame := search.exploreNoting_same depth task .empty
  rw [show search.explore depth task Notes.empty.found = .ok found from h] at hsame
  generalize search.exploreNoting depth task .empty = outcome at hsame
  cases hsame with
  | ok heq => exact ⟨_, rfl, heq⟩

/-! ## What a search has performed -/

/-- An n-gram had been found before, or the path that has found it has been followed further. -/
def Settled (search : Search) (performed : Task → Prop) (finds : List (Task × Ngram))
    (found : NgramSet) (ngram : Ngram) : Prop :=
  ngram ∈ found.toList ∨ ∃ task, performed task ∧ (task, ngram) ∈ finds ∧
    search.Completes task ngram ∧ ∀ task', search.Continues task task' → performed task'

/-- What is settled stays so when more is performed and found. -/
theorem Settled.mono (h : search.Settled performed finds found ngram)
    (hle : ∀ task, performed task → performed' task) (hfinds : finds ⊆ finds') :
    search.Settled performed' finds' found ngram := by
  rcases h with hfound | ⟨task, htask, hfind, hcompletes, hall⟩
  · exact .inl hfound
  · exact .inr ⟨task, hle task htask, hfinds hfind, hcompletes,
      fun task' hgo => hle task' (hall task' hgo)⟩

/-- The tasks that a search performs when it follows some tasks and all that they lead to. A path
ends where it cannot go on and at n-grams that are settled. -/
structure Trace (search : Search) (tasks : List Task) (notes notes' : Notes)
    (performed : Task → Prop) : Prop where
  given {task : Task} : task ∈ tasks → performed task
  origin {task : Task} : performed task → ∃ first ∈ tasks, ReflTransGen search.Continues first task
  keeps {ngram : Ngram} : ngram ∈ notes.found.toList → ngram ∈ notes'.found.toList
  noted : notes.finds ⊆ notes'.finds
  completes {task : Task} {ngram : Ngram} : performed task → search.Completes task ngram →
    ngram ∈ notes'.found.toList
  settled {ngram : Ngram} : ngram ∈ notes'.found.toList →
    search.Settled performed notes'.finds notes.found ngram
  followed {task : Task} : performed task →
    (∀ task', search.Continues task task' → performed task') ∨
      ∃ ngram, search.Completes task ngram ∧
        search.Settled performed notes'.finds notes.found ngram

namespace Trace

theorem nil (search : Search) (notes : Notes) :
    search.Trace [] notes notes (fun _ => False) where
  given hmem := absurd hmem List.not_mem_nil
  origin := False.elim
  keeps := id
  noted _ := id
  completes := False.elim
  settled := .inl
  followed := False.elim

/-- What is settled in the second of two runs is settled in both together. -/
theorem settled_append (h : search.Trace tasks notes mid performed) (hfinds : mid.finds ⊆ finds)
    (hsettled : search.Settled performed' finds mid.found ngram) :
    search.Settled (fun task => performed task ∨ performed' task) finds notes.found ngram := by
  rcases hsettled with hmid | ⟨task, htask, hfind, hcompletes, hall⟩
  · exact (h.settled hmid).mono (fun _ => .inl) hfinds
  · exact .inr ⟨task, .inr htask, hfind, hcompletes, fun task' hgo => .inr (hall task' hgo)⟩

/-- A task is followed to its end before the others. -/
theorem cons (h : search.Trace [task] notes mid performed)
    (h' : search.Trace tasks mid notes' performed') :
    search.Trace (task :: tasks) notes notes'
      (fun other => performed other ∨ performed' other) where
  given hmem := by
    rcases List.mem_cons.mp hmem with rfl | hmem
    · exact .inl (h.given (List.mem_singleton_self _))
    · exact .inr (h'.given hmem)
  origin hother := by
    rcases hother with hother | hother
    · obtain ⟨first, hfirst, hpath⟩ := h.origin hother
      obtain rfl := List.mem_singleton.mp hfirst
      exact ⟨first, List.mem_cons_self, hpath⟩
    · obtain ⟨first, hfirst, hpath⟩ := h'.origin hother
      exact ⟨first, List.mem_cons_of_mem _ hfirst, hpath⟩
  keeps hfound := h'.keeps (h.keeps hfound)
  noted := List.Subset.trans h.noted h'.noted
  completes hother hcompletes :=
    hother.elim (fun hother => h'.keeps (h.completes hother hcompletes))
      fun hother => h'.completes hother hcompletes
  settled hfound := h.settled_append h'.noted (h'.settled hfound)
  followed hother := by
    rcases hother with hother | hother
    · rcases h.followed hother with hall | ⟨ngram, hcompletes, hsettled⟩
      · exact .inl fun task' hgo => .inl (hall task' hgo)
      · exact .inr ⟨ngram, hcompletes, hsettled.mono (fun _ => .inl) h'.noted⟩
    · rcases h'.followed hother with hall | ⟨ngram, hcompletes, hsettled⟩
      · exact .inl fun task' hgo => .inr (hall task' hgo)
      · exact .inr ⟨ngram, hcompletes, h.settled_append h'.noted hsettled⟩

/-- A task is performed, and then all that it leads to. -/
theorem perform (hnotices : search.Notices task notes mid tasks)
    (h : search.Trace tasks mid notes' performed) :
    search.Trace [task] notes notes' (fun other => other = task ∨ performed other) := by
  -- The n-gram of the task is settled by the task itself, unless it had been found before.
  have hself : ∀ ngram, search.Completes task ngram → search.Settled
      (fun other => other = task ∨ performed other) notes'.finds notes.found ngram := by
    intro ngram hcompletes
    by_cases hfound : ngram ∈ notes.found.toList
    · exact .inl hfound
    · have hfind := (hnotices.finds_iff task ngram).mpr (.inr ⟨rfl, hcompletes, hfound⟩)
      rcases hnotices.complete with hall | ⟨other, hmem, hother⟩
      · exact .inr ⟨task, .inl rfl, h.noted hfind, hcompletes,
          fun task' hgo => .inr (h.given (hall task' hgo))⟩
      · exact absurd (hcompletes.unique hother ▸ hmem) hfound
  have hmid : ∀ ngram, search.Settled performed notes'.finds mid.found ngram → search.Settled
      (fun other => other = task ∨ performed other) notes'.finds notes.found ngram := by
    rintro ngram (hmid | hlater)
    · exact ((hnotices.found_iff ngram).mp hmid).elim .inl (hself ngram)
    · exact Settled.mono (.inr hlater) (fun _ => .inr) (List.Subset.refl _)
  refine ⟨fun hmem => .inl (List.mem_singleton.mp hmem), ?_, fun hfound => ?_, ?_, ?_,
    fun hfound => hmid _ (h.settled hfound), ?_⟩
  · rintro other (rfl | hother)
    · exact ⟨other, List.mem_singleton_self _, .refl⟩
    · obtain ⟨first, hfirst, hpath⟩ := h.origin hother
      exact ⟨task, List.mem_singleton_self _, .head (hnotices.continues first hfirst) hpath⟩
  · exact h.keeps ((hnotices.found_iff _).mpr (.inl hfound))
  · rintro ⟨other, ngram⟩ hfind
    exact h.noted ((hnotices.finds_iff other ngram).mpr (.inl hfind))
  · rintro other ngram (rfl | hother) hcompletes
    · exact h.keeps ((hnotices.found_iff ngram).mpr (.inr hcompletes))
    · exact h.completes hother hcompletes
  · rintro other (rfl | hother)
    · rcases hnotices.complete with hall | ⟨ngram, hfound, hcompletes⟩
      · exact .inl fun task' hgo => .inr (h.given (hall task' hgo))
      · exact .inr ⟨ngram, hcompletes, .inl hfound⟩
    · rcases h.followed hother with hall | ⟨ngram, hcompletes, hsettled⟩
      · exact .inl fun task' hgo => .inr (hall task' hgo)
      · exact .inr ⟨ngram, hcompletes, hmid ngram hsettled⟩

end Trace

/-- A loop over tasks performs what each round performs. -/
theorem exists_trace_foldlM {step : Notes → Task → Except Error Notes}
    (hstep : ∀ task notes notes', step notes task = .ok notes' →
      ∃ performed, search.Trace [task] notes notes' performed)
    (h : tasks.foldlM step notes = .ok notes') :
    ∃ performed, search.Trace tasks notes notes' performed := by
  induction tasks generalizing notes with
  | nil =>
    obtain rfl : notes = notes' := Except.ok.inj h
    exact ⟨_, .nil search notes⟩
  | cons task tasks ih =>
    obtain ⟨mid, hmid, hrest⟩ := foldlM_cons_eq_ok h
    obtain ⟨performed, htrace⟩ := hstep task notes mid hmid
    obtain ⟨performed', htrace'⟩ := ih hrest
    exact ⟨_, htrace.cons htrace'⟩

/-- A search performs the tasks of a trace. -/
theorem exists_trace (h : search.exploreNoting depth task notes = .ok notes') :
    ∃ performed, search.Trace [task] notes notes' performed := by
  induction depth generalizing task notes notes' with
  | zero => cases h
  | succ depth ih =>
    rw [exploreNoting, follow_succ] at h
    obtain ⟨⟨mid, tasks⟩, hperform, h⟩ := exists_of_bind_eq_ok h
    obtain ⟨performed, htrace⟩ := exists_trace_foldlM (fun task notes notes' => ih) h
    exact ⟨_, htrace.perform (notices_of_performNoting hperform)⟩

/-- A search that begins with nothing only finds what its paths complete. -/
theorem yields_of_mem_explore (h : search.explore depth task .empty = .ok found)
    (hngram : ngram ∈ found.toList) : search.Yields task ngram := by
  obtain ⟨notes, hrun, rfl⟩ := exists_exploreNoting h
  obtain ⟨performed, htrace⟩ := exists_trace hrun
  obtain ⟨last, hlast, -, hcompletes, -⟩ :=
    (htrace.settled hngram).resolve_left NgramSet.not_mem_empty
  obtain ⟨first, hfirst, hpath⟩ := htrace.origin hlast
  obtain rfl := List.mem_singleton.mp hfirst
  exact ⟨last, hpath, hcompletes⟩

/-! ## The one task that finds an n-gram -/

/-- Notes stay tidy with every task. -/
theorem Notices.tidy (h : search.Notices task notes notes' tasks) (hnotes : notes.Tidy) :
    notes'.Tidy := by
  refine ⟨fun {other ngram} hfind => ?_, fun {other other' ngram} hfind hfind' => ?_⟩
  · rw [h.found_iff]
    exact ((h.finds_iff other ngram).mp hfind).imp hnotes.found fun hnew => hnew.2.1
  · rcases (h.finds_iff other ngram).mp hfind with hold | ⟨rfl, -, hnot⟩
    · rcases (h.finds_iff other' ngram).mp hfind' with hold' | ⟨-, -, hnot⟩
      · exact hnotes.unique hold hold'
      · exact absurd (hnotes.found hold) hnot
    · rcases (h.finds_iff other' ngram).mp hfind' with hold' | ⟨rfl, -⟩
      · exact absurd (hnotes.found hold') hnot
      · rfl

/-- Notes that are tidy at first are tidy at the end. -/
theorem tidy_of_exploreNoting (h : search.exploreNoting depth task notes = .ok notes')
    (hnotes : notes.Tidy) : notes'.Tidy :=
  follow_keeps (fun htidy hperform => (notices_of_performNoting hperform).tidy htidy) hnotes h

/-- The notes of a search tell at which tasks it finds n-grams, however deep it may go. -/
theorem findsAt_iff (h : search.exploreNoting depth start .empty = .ok notes) :
    search.FindsAt start task ngram ↔ (task, ngram) ∈ notes.finds := by
  refine ⟨?_, fun hfind => ⟨depth, notes, h, hfind⟩⟩
  rintro ⟨depth', notes', h', hfind⟩
  have hdeep := follow_mono (Nat.le_max_left depth depth') h
  have hdeep' := follow_mono (Nat.le_max_right depth depth') h'
  rwa [Except.ok.inj (hdeep.symm.trans hdeep')]

/-- A search finds each of its n-grams at one task only. -/
theorem mem_iff_existsUnique_findsAt (h : search.explore depth start .empty = .ok found) :
    ngram ∈ found.toList ↔ ∃! task, search.FindsAt start task ngram := by
  obtain ⟨notes, hrun, rfl⟩ := exists_exploreNoting h
  have htidy := tidy_of_exploreNoting hrun Notes.tidy_empty
  simp only [ExistsUnique, findsAt_iff hrun]
  constructor
  · intro hngram
    obtain ⟨performed, htrace⟩ := exists_trace hrun
    obtain ⟨task, -, hfind, -⟩ := (htrace.settled hngram).resolve_left NgramSet.not_mem_empty
    exact ⟨task, hfind, fun other hother => htidy.unique hother hfind⟩
  · rintro ⟨task, hfind, -⟩
    exact htidy.found hfind

end Search

end CallNgrams
