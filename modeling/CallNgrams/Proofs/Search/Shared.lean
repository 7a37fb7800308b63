import CallNgrams.Proofs.Search.Provenance

/-!
# Searches that share a set of n-grams

The searches from several indices of a method add to one set, and a path ends at an n-gram that is
already in it. But an n-gram that starts at another index is foreign to a search, and a path ends at
a foreign n-gram in any case. So each search finds in the shared set what it finds alone.
-/

namespace CallNgrams

namespace Search

variable {search : Search} {task : Task} {tasks : List Task} {depth : Nat}
  {earlier alone alone' shared : NgramSet}

/-- A set holds what a search has found alone and what was found earlier. -/
def Beside (earlier alone shared : NgramSet) : Prop :=
  ∀ ngram, ngram ∈ shared.toList ↔ ngram ∈ alone.toList ∨ ngram ∈ earlier.toList

/-- A new n-gram keeps two sets apart by the earlier ones only. -/
theorem Beside.insert (h : Beside earlier alone shared) (ngram : Ngram) :
    Beside earlier (alone.insert ngram) (shared.insert ngram) := by
  intro other
  rw [NgramSet.mem_insert, NgramSet.mem_insert, h other, or_assoc]

/-- A path ends at an n-gram whether or not foreign n-grams have been found earlier. -/
theorem Beside.ends_eq (h : Beside earlier alone shared)
    (hforeign : ∀ ngram ∈ earlier.toList, search.isForeign ngram.head = true) (ngram : Ngram) :
    (search.isForeign ngram.head || shared.contains ngram) =
      (search.isForeign ngram.head || alone.contains ngram) := by
  rw [Bool.eq_iff_iff, Bool.or_eq_true, Bool.or_eq_true, NgramSet.contains_iff,
    NgramSet.contains_iff, h ngram]
  constructor
  · rintro (hhead | hmem | hearlier)
    · exact .inl hhead
    · exact .inr hmem
    · exact .inl (hforeign ngram hearlier)
  · rintro (hhead | hmem)
    · exact .inl hhead
    · exact .inr (.inl hmem)

/-- A call has the same effect in both sets, since the earlier n-grams are foreign to the search. -/
theorem Beside.emit (h : Beside earlier alone shared)
    (hforeign : ∀ ngram ∈ earlier.toList, search.isForeign ngram.head = true) {walk : Walk}
    {target : CallTarget} {next : Option Nat}
    (hemit : search.emit walk target next alone = .ok (alone', tasks)) :
    ∃ shared', search.emit walk target next shared = .ok (shared', tasks) ∧
      Beside earlier alone' shared' := by
  simp only [Search.emit] at hemit ⊢
  split at hemit
  · obtain ⟨walk', hwalk', hend⟩ := exists_of_bind_eq_ok hemit
    obtain ⟨rfl, rfl⟩ := Prod.mk.inj (Except.ok.inj hend)
    rw [hwalk']
    exact ⟨shared, rfl, h⟩
  · split at hemit
    case h_1 =>
      obtain ⟨walk', hwalk', hend⟩ := exists_of_bind_eq_ok hemit
      obtain ⟨rfl, rfl⟩ := Prod.mk.inj (Except.ok.inj hend)
      rw [hwalk']
      exact ⟨shared, rfl, h⟩
    case h_2 ngram _ =>
      rw [h.ends_eq hforeign ngram]
      split at hemit
      case isTrue hcut =>
        obtain ⟨rfl, rfl⟩ := Prod.mk.inj (Except.ok.inj hemit)
        rw [if_pos hcut]
        exact ⟨shared, rfl, h⟩
      case isFalse hgo =>
        obtain ⟨walk', hwalk', hend⟩ := exists_of_bind_eq_ok hemit
        obtain ⟨rfl, rfl⟩ := Prod.mk.inj (Except.ok.inj hend)
        rw [if_neg hgo, hwalk']
        exact ⟨shared.insert ngram, rfl, h.insert ngram⟩

/-- A task leads to the same tasks beside foreign n-grams. -/
theorem Beside.perform (h : Beside earlier alone shared)
    (hforeign : ∀ ngram ∈ earlier.toList, search.isForeign ngram.head = true)
    (hperform : search.perform task alone = .ok (alone', tasks)) :
    ∃ shared', search.perform task shared = .ok (shared', tasks) ∧
      Beside earlier alone' shared' := by
  cases task with
  | arrive walk =>
    obtain ⟨tasks', hexpand, heq⟩ := exists_of_map_eq_ok hperform
    obtain ⟨rfl, rfl⟩ := Prod.mk.inj heq
    refine ⟨shared, ?_, h⟩
    rw [Search.perform, hexpand]
    rfl
  | emit walk target next => exact h.emit hforeign hperform

/-- A search finds beside foreign n-grams what it finds alone. -/
theorem Beside.explore (h : Beside earlier alone shared)
    (hforeign : ∀ ngram ∈ earlier.toList, search.isForeign ngram.head = true)
    (hexplore : search.explore depth task alone = .ok alone') :
    ∃ shared', search.explore depth task shared = .ok shared' ∧
      Beside earlier alone' shared' := by
  induction depth generalizing task alone alone' shared with
  | zero => cases hexplore
  | succ depth ih =>
    rw [explore_succ] at hexplore
    obtain ⟨⟨mid, tasks⟩, hperform, hrest⟩ := exists_of_bind_eq_ok hexplore
    obtain ⟨mid', hperform', hmid⟩ := h.perform hforeign hperform
    rw [explore_succ, hperform']
    exact foldlM_simulate (fun task _ alone alone' shared hbeside hrun => ih hbeside hrun) hmid
      hrest

end Search

section Indices

variable {graphs : GraphTable} {policy : DigPolicy} {options : SearchOptions} {root : MethodKey}
  {graph : MethodGraph} {depth : Nat} {found single : NgramSet}

/-- The n-grams that start at an index are found beside ones that start at other indices. -/
theorem exists_addNgramsFrom_beside {index : Nat}
    (hfound : ∀ ngram ∈ found.toList, ngram.head.frame.point.method = root ∧
      ngram.head.frame.point.index ≠ index)
    (hsingle : addNgramsFrom depth graphs policy options root graph .empty index = .ok single) :
    ∃ found', addNgramsFrom depth graphs policy options root graph found index = .ok found' ∧
      Search.Beside found single found' := by
  have hforeign : ∀ ngram ∈ found.toList,
      Search.isForeign ⟨graphs, policy, options, root, some index⟩ ngram.head = true := by
    intro ngram hngram
    obtain ⟨hmethod, hindex⟩ := hfound ngram hngram
    simp [Search.isForeign, Search.isForeignAt, hmethod, hindex]
  have hempty : Search.Beside found .empty found := fun ngram => by simp
  rw [addNgramsFrom] at hsingle ⊢
  split at hsingle
  · cases hsingle
  · exact hempty.explore hforeign hsingle

/-- The n-grams that start at different indices are those that start at each of them. -/
theorem exists_foldlM_addNgramsFrom (hroot : graphs.get? root = some graph) {indices : List Nat}
    (hnodup : indices.Nodup)
    (hsingle : ∀ index ∈ indices, ∃ single,
      addNgramsFrom depth graphs policy options root graph .empty index = .ok single)
    (hfound : ∀ ngram ∈ found.toList, ngram.head.frame.point.method = root ∧
      ngram.head.frame.point.index ∉ indices) :
    ∃ all, indices.foldlM (addNgramsFrom depth graphs policy options root graph) found = .ok all ∧
      ∀ ngram, ngram ∈ all.toList ↔ ngram ∈ found.toList ∨ ∃ index ∈ indices, ∃ single,
        addNgramsFrom depth graphs policy options root graph .empty index = .ok single ∧
          ngram ∈ single.toList := by
  induction indices generalizing found with
  | nil => exact ⟨found, rfl, fun ngram => by simp⟩
  | cons index indices ih =>
    obtain ⟨hnotMem, hnodup⟩ := List.nodup_cons.mp hnodup
    obtain ⟨single, hrun⟩ := hsingle index List.mem_cons_self
    obtain ⟨found', hrun', hbeside⟩ := exists_addNgramsFrom_beside (fun ngram hngram =>
      ⟨(hfound ngram hngram).1, List.ne_of_not_mem_cons (hfound ngram hngram).2⟩) hrun
    have hfound' : ∀ ngram ∈ found'.toList, ngram.head.frame.point.method = root ∧
        ngram.head.frame.point.index ∉ indices := by
      intro ngram hngram
      rcases (hbeside ngram).mp hngram with hnew | hold
      · rcases provenance_of_addNgramsFrom hroot hrun hnew with hempty | ⟨hprovenance, hindex⟩
        · exact absurd hempty NgramSet.not_mem_empty
        · exact ⟨hprovenance.head.2.2, hindex ▸ hnotMem⟩
      · exact ⟨(hfound ngram hold).1, List.not_mem_of_not_mem_cons (hfound ngram hold).2⟩
    obtain ⟨all, hall, hmem⟩ := ih hnodup
      (fun index' hindex' => hsingle index' (List.mem_cons_of_mem _ hindex')) hfound'
    refine ⟨all, ?_, fun ngram => ?_⟩
    · rw [List.foldlM_cons, hrun']
      exact hall
    · rw [hmem ngram, hbeside ngram]
      simp only [List.mem_cons, exists_eq_or_imp, hrun, Except.ok.injEq, exists_eq_left',
        or_left_comm, or_assoc]

end Indices

end CallNgrams
