import CallNgrams.Proofs.Flow.Decode
import CallNgrams.Proofs.Flow.Merge

/-!
# Entries into the middle of a branch chain

References to a branch that was taken over move past it, whoever holds them. So control that enters
a chain of branches at a later branch loses the targets of that branch. A path that enters each
chain at its first branch keeps its calls: where it was at a branch that was taken over, control is
now at the branch that took it over.
-/

namespace CallNgrams

namespace CellArray

variable {array : CellArray} {i c p dest : Nat} {site : Option CallSite}

/-- A branch falls through to another branch, which does not fall through to itself. -/
structure Chained (array : CellArray) (i c : Nat) : Prop where
  ne : i ≠ c
  first : array.IsBranch i
  second : array.IsBranch c
  falls : array.next? i = some c
  leaves : array.next? c ≠ some c

/-- A step that enters no branch from the side: one that a branch falls through to is entered from
that branch or from itself. -/
def DirectStep (array : CellArray) : Transition :=
  fun p site q => array.Step p site q ∧ ∀ i, array.Chained i q → p = i ∨ p = q

/-- Some path that enters no branch from the side makes exactly these calls. -/
def MakesDirectly (array : CellArray) (calls : List CallSite) : Prop :=
  (∀ i, ¬array.Chained i array.entrance) ∧ Emits array.DirectStep array.entrance calls

/-- A path that enters no branch from the side is a path. -/
theorem MakesDirectly.makes {calls : List CallSite} (h : array.MakesDirectly calls) :
    array.Makes calls := by
  obtain ⟨-, r, hp⟩ := h
  exact ⟨r, hp.mono fun _ _ _ hs => hs.1⟩

/-! ## One takeover

While a branch takes over others, those that it took over still fall through to where it does. The
steps that are direct apart from them are followed.
-/

/-- A step that enters no branch from the side, if the branches in `dead` do not count. -/
def DirectStepBut (dead : List Nat) (array : CellArray) : Transition :=
  fun p site q => array.Step p site q ∧ ∀ i, i ∉ dead → array.Chained i q → p = i ∨ p = q

/-- Some path that enters no branch from the side makes exactly these calls, if the branches in
`dead` do not count. -/
def MakesDirectlyBut (dead : List Nat) (array : CellArray) (calls : List CallSite) : Prop :=
  (∀ i, i ∉ dead → ¬array.Chained i array.entrance) ∧
    Emits (array.DirectStepBut dead) array.entrance calls

theorem MakesDirectly.but {calls : List CallSite} (h : array.MakesDirectly calls)
    (dead : List Nat) : MakesDirectlyBut dead array calls := by
  obtain ⟨hentrance, r, hp⟩ := h
  exact ⟨fun i _ => hentrance i, r,
    hp.mono fun _ _ _ hs => ⟨hs.1, fun i _ hchain => hs.2 i hchain⟩⟩

/-- Branches that are not chained may as well not count. -/
theorem MakesDirectlyBut.of_not_chained {dead : List Nat} {calls : List CallSite}
    (h : MakesDirectlyBut dead array calls) (hdead : ∀ i ∈ dead, ∀ c, ¬array.Chained i c) :
    array.MakesDirectly calls := by
  have hlive : ∀ i c, array.Chained i c → i ∉ dead := fun i c hchain hi => hdead i hi c hchain
  obtain ⟨hentrance, r, hp⟩ := h
  exact ⟨fun i hchain => hentrance i (hlive i _ hchain) hchain, r,
    hp.mono fun _ _ _ hs => ⟨hs.1, fun i hchain => hs.2 i (hlive i _ hchain) hchain⟩⟩

namespace Absorbable

variable {index current after : Nat} {targets more dead : List Nat}

/-- The branch that takes over is chained to the one that it takes over. -/
theorem chained (h : array.Absorbable index current after targets more) (hne : after ≠ current) :
    array.Chained index current where
  ne := h.ne.symm
  first := ⟨targets, h.host⟩
  second := ⟨more, h.guest⟩
  falls := h.enters
  leaves := by
    rw [h.leaves]
    exact fun he => hne (Option.some.inj he)

/-- Chains stay as they were, or a chain of three has lost its middle. -/
theorem chained_of_takeOver (h : array.Absorbable index current after targets more)
    (hi : i ≠ current)
    (hchain : (array.takeOver index current after targets more).Chained i c) :
    c ≠ current ∧ array.Chained i c ∨
      c = after ∧ array.Chained i current ∧ array.Chained current after := by
  have hfirst := h.isBranch_iff.mp hchain.first
  have hsecond := h.isBranch_iff.mp hchain.second
  have hnext := hchain.falls
  rw [next?_of_ne hi] at hnext
  obtain ⟨d, hd, hmoved⟩ := Option.map_eq_some_iff.mp hnext
  -- A branch that does not fall through to itself now did not do so before.
  have hleaves : c ≠ current → array.next? c ≠ some c := by
    intro hne he
    refine hchain.leaves ?_
    rw [next?_of_ne hne, he, Option.map_some, moved_of_ne hne]
  by_cases hdc : d = current
  · obtain rfl : after = c := by rw [← hmoved, hdc, moved_old]
    have hself : after ≠ current := by
      rintro rfl
      exact hchain.leaves h.next?_guest
    refine .inr ⟨rfl, ⟨hi, hfirst, ⟨more, h.guest⟩, hdc ▸ hd, (h.chained hself).leaves⟩, ?_⟩
    exact ⟨hself.symm, ⟨more, h.guest⟩, hsecond, h.leaves, hleaves hself⟩
  · rw [moved_of_ne hdc] at hmoved
    subst hmoved
    exact .inl ⟨hdc, hchain.ne, hfirst, hsecond, hd, hleaves hdc⟩

/-- If the guest falls through to itself, references stay and only the host gets more targets. -/
theorem step_of_self (h : array.Absorbable index current current targets more)
    (hs : array.Step p site dest) :
    (array.takeOver index current current targets more).Step p site dest := by
  by_cases hhost : p = index
  · subst p
    obtain ⟨rfl, hq⟩ := h.step_host_before.mp hs
    by_cases he : dest = current
    · exact h.step_host.mpr ⟨rfl, .inl he⟩
    · exact h.step_host.mpr ⟨rfl, .inr ⟨he, .inl (hq.resolve_left he)⟩⟩
  · by_cases hguest : p = current
    · subst p
      obtain ⟨rfl, he | hq⟩ := h.step_guest_before.mp hs
      · exact h.step_guest.mpr ⟨rfl, .inl he⟩
      · exact h.step_guest.mpr ⟨rfl, .inr ⟨dest, hq, moved_same.symm⟩⟩
    · exact (h.step_of_ne hhost hguest).mpr ⟨dest, hs, moved_same.symm⟩

/-- A step to a cell other than the guest can be taken with the host in place of the guest. -/
theorem step_of_dest_ne (h : array.Absorbable index current after targets more)
    (hs : array.Step p site dest) (hne : dest ≠ current) :
    (array.takeOver index current after targets more).Step (moved current index p) site dest := by
  by_cases hguest : p = current
  · rw [hguest, moved_old]
    obtain ⟨rfl, he | hm⟩ := h.step_guest_before.mp (hguest ▸ hs)
    · exact h.step_host.mpr ⟨rfl, .inl he⟩
    · exact h.step_host.mpr ⟨rfl, .inr ⟨hne, .inr hm⟩⟩
  · rw [moved_of_ne hguest]
    by_cases hhost : p = index
    · subst p
      obtain ⟨rfl, ht⟩ := h.step_host_before.mp hs
      exact h.step_host.mpr ⟨rfl, .inr ⟨hne, .inl (ht.resolve_left hne)⟩⟩
    · exact (h.step_of_ne hhost hguest).mpr ⟨dest, hs, (moved_of_ne hne).symm⟩

/-- A direct step stays direct with the host in place of the guest, if only the host falls through
to a guest that control is at. -/
theorem direct_takeOver (h : array.Absorbable index current after targets more)
    (hcurrent : current ∉ dead) (hs : DirectStepBut dead array p site dest)
    (hne : dest ≠ current)
    (hp : p = current → ∀ i, i ∉ dead → array.Chained i current → i = index)
    (hi : i ∉ current :: dead)
    (hchain : (array.takeOver index current after targets more).Chained i dest) :
    moved current index p = i ∨ moved current index p = dest := by
  obtain ⟨hi, hlive⟩ := not_or.mp (mt List.mem_cons.mpr hi)
  rcases h.chained_of_takeOver hi hchain with ⟨-, hbefore⟩ | ⟨rfl, hin, hout⟩
  · have hfrom := hs.2 i hlive hbefore
    have hguest : p ≠ current := by
      rintro rfl
      rcases hfrom with he | he
      · exact hi he.symm
      · exact hne he.symm
    rwa [moved_of_ne hguest]
  · by_cases hguest : p = current
    · rw [hguest, moved_old]
      exact .inl (hp hguest i hlive hin).symm
    · rw [moved_of_ne hguest]
      exact .inr ((hs.2 current hcurrent hout).resolve_left hguest)

/-- A takeover keeps the calls of every path that enters no branch from the side. -/
theorem makesDirectly (h : array.Absorbable index current after targets more)
    (hindex : index ∉ dead) (hcurrent : current ∉ dead) {calls : List CallSite}
    (hm : MakesDirectlyBut dead array calls) :
    MakesDirectlyBut (current :: dead) (array.takeOver index current after targets more) calls := by
  obtain ⟨hentrance, r, hpath⟩ := hm
  have houtside : after ≠ current → array.entrance ≠ current :=
    fun hself he => hentrance index hindex (he ▸ h.chained hself)
  have heq : (array.takeOver index current after targets more).entrance = array.entrance := by
    by_cases hself : after = current
    · subst hself
      exact moved_same
    · exact moved_of_ne (houtside hself)
  rw [MakesDirectlyBut, heq]
  constructor
  · intro i hi hchain
    obtain ⟨hi, hlive⟩ := not_or.mp (mt List.mem_cons.mpr hi)
    rcases h.chained_of_takeOver hi hchain with ⟨-, hbefore⟩ | ⟨he, -, hout⟩
    · exact hentrance i hlive hbefore
    · exact hentrance current hcurrent (he ▸ hout)
  · by_cases hself : after = current
    · subst hself
      refine ⟨r, hpath.mono fun p site q hs => ⟨h.step_of_self hs.1, fun i hi hchain => ?_⟩⟩
      obtain ⟨hi, hlive⟩ := not_or.mp (mt List.mem_cons.mpr hi)
      rcases h.chained_of_takeOver hi hchain with ⟨-, hbefore⟩ | ⟨-, -, hout⟩
      · exact hs.2 i hlive hbefore
      · exact absurd rfl hout.ne
    · have hhost : moved current index array.entrance = array.entrance :=
        moved_of_ne (houtside hself)
      refine ⟨moved current index r, ?_⟩
      rw [← hhost]
      -- Control is at the guest only after it was at the host, so nothing else falls through there.
      refine hpath.simulate (moved current index)
        (fun p => p = current → ∀ i, i ∉ dead → array.Chained i current → i = index)
        (fun p site q hp hs => ?_) (fun he => absurd he (houtside hself))
      by_cases hq : q = current
      · subst q
        rcases hs.2 index hindex (h.chained hself) with rfl | rfl
        · refine ⟨fun _ i hlive hchain => ?_, .inr ⟨(h.step_host_before.mp hs.1).1, ?_⟩⟩
          · exact ((hs.2 i hlive hchain).resolve_right h.ne.symm).symm
          · rw [moved_old, moved_of_ne h.ne.symm]
        · exact ⟨hp, .inr ⟨(h.step_guest_before.mp hs.1).1, rfl⟩⟩
      · refine ⟨fun he => absurd he hq, .inl ?_⟩
        rw [moved_of_ne hq]
        exact ⟨h.step_of_dest_ne hs.1 hq, fun i hi => h.direct_takeOver hcurrent hs hq hp hi⟩

end Absorbable

/-! ## The whole pass -/

/-- While the branch at `index` takes over one branch after another, those that it took over fall
through to where it does, and the paths that enter no branch from the side are kept. -/
structure Merging (start : CellArray) (index : Nat) (done : List Nat) (array : CellArray)
    (dead : List Nat) : Prop where
  visited : done = dead ++ [index]
  nodup : done.Nodup
  branch : ∀ d ∈ done, array.IsBranch d
  size : array.size = start.size
  resolved : array.Resolved
  spent : ∀ d ∈ dead, array.next? d = array.next? index
  makes : ∀ calls, start.MakesDirectly calls → MakesDirectlyBut dead array calls

namespace Merging

variable {start : CellArray} {index current after : Nat} {done dead targets more : List Nat}

theorem mem (h : Merging start index done array dead) : index ∈ done := by
  rw [h.visited]
  exact List.mem_append_right _ (List.mem_singleton.mpr rfl)

theorem mem_of_dead (h : Merging start index done array dead) (hi : i ∈ dead) : i ∈ done := by
  rw [h.visited]
  exact List.mem_append_left _ hi

theorem index_not_mem_dead (h : Merging start index done array dead) : index ∉ dead := by
  have hnodup := h.nodup
  rw [h.visited, List.nodup_append'] at hnodup
  exact fun hmem => hnodup.2.2 hmem (List.mem_singleton.mpr rfl)

/-- Taking over one more branch keeps the paths that enter none from the side. -/
theorem takeOver (h : Merging start index done array dead) (hdone : current ∉ done)
    (habs : array.Absorbable index current after targets more) :
    Merging start index (current :: done) (array.takeOver index current after targets more)
      (current :: dead) where
  visited := by rw [h.visited, List.cons_append]
  nodup := List.nodup_cons.mpr ⟨hdone, h.nodup⟩
  branch d hd := by
    rw [habs.isBranch_iff]
    rcases List.mem_cons.mp hd with rfl | hd
    · exact ⟨more, habs.guest⟩
    · exact h.branch d hd
  size := by rw [CellArray.takeOver, size_redirect, size_setCommand, h.size]
  resolved := habs.resolved h.resolved
  spent d hd := by
    rcases List.mem_cons.mp hd with rfl | hold
    · rw [habs.next?_guest, habs.next?_host]
    · have hne : d ≠ current := fun he => hdone (he ▸ h.mem_of_dead hold)
      rw [Absorbable.next?_of_ne hne, Absorbable.next?_of_ne habs.ne.symm, h.spent d hold]
  makes calls hm :=
    habs.makesDirectly h.index_not_mem_dead (fun hmem => hdone (h.mem_of_dead hmem))
      (h.makes calls hm)

/-- There are not more visited cells than cells. -/
theorem length_le (h : Merging start index done array dead) : done.length ≤ start.size := by
  have hsub : done ⊆ List.range start.size := by
    intro d hd
    obtain ⟨targets, hc⟩ := h.branch d hd
    exact List.mem_range.mpr (h.size ▸ lt_size_of_command? hc)
  simpa using (h.nodup.subperm hsub).length_le

/-- When nothing is left to be taken over, no chain starts at a branch that was taken over. -/
theorem not_chained (h : Merging start index done array dead)
    (hend : ∀ current, array.next? index = some current → array.IsBranch current →
      current ∈ done) (hi : i ∈ dead) : ¬array.Chained i c := by
  intro hchain
  -- The branch that took over falls through to a visited branch, which then does so to itself.
  have hc : array.next? index = some c := (h.spent i hi).symm.trans hchain.falls
  have hdone := hend c hc hchain.second
  rw [h.visited, List.mem_append, List.mem_singleton] at hdone
  rcases hdone with hdead | rfl
  · exact hchain.leaves ((h.spent c hdead).trans hc)
  · exact hchain.leaves hc

end Merging

/-- Sorting the targets of a branch keeps the paths that enter none from the side. -/
theorem MakesDirectly.sortTargets {targets : List Nat} {calls : List CallSite}
    (h : array.MakesDirectly calls) (hc : array.command? p = some (.branch targets)) :
    (array.setCommand p (.branch (Destinations.ofList targets))).MakesDirectly calls := by
  have hchained : ∀ i c, (array.setCommand p (.branch (Destinations.ofList targets))).Chained i c →
      array.Chained i c := by
    intro i c hchain
    exact ⟨hchain.ne, (isBranch_sortTargets hc i).mp hchain.first,
      (isBranch_sortTargets hc c).mp hchain.second, next?_setCommand _ ▸ hchain.falls,
      next?_setCommand _ ▸ hchain.leaves⟩
  obtain ⟨hentrance, r, hp⟩ := h
  refine ⟨fun i hchain => hentrance i (hchained i _ hchain), r, ?_⟩
  refine hp.mono fun p site q hs => ⟨?_, fun i hchain => hs.2 i (hchained i q hchain)⟩
  rw [step_sortTargets hc]
  exact hs.1

/-- Merging at one cell keeps them as well. -/
theorem MakesDirectly.mergeBranchAt {calls : List CallSite} (h : array.MakesDirectly calls)
    (hres : array.Resolved) (index : Nat) : (array.mergeBranchAt index).MakesDirectly calls := by
  rw [CellArray.mergeBranchAt]
  split
  case h_1 targets hc =>
    have hstart : Merging array index [index]
        (array.setCommand index (.branch (Destinations.ofList targets))) [] := by
      refine ⟨rfl, List.nodup_singleton index, ?_, size_setCommand _, hres.sortTargets hc, ?_, ?_⟩
      · intro d hd
        obtain rfl := List.mem_singleton.mp hd
        exact (isBranch_sortTargets hc d).mpr ⟨targets, hc⟩
      · exact fun d hd => absurd hd List.not_mem_nil
      · exact fun calls hm => (hm.sortTargets hc).but []
    have hhost : ∀ done b, (∃ dead, Merging array index done b dead) →
        index ∈ done ∧ b.Resolved ∧ b.IsBranch index := by
      rintro done b ⟨dead, hM⟩
      exact ⟨hM.mem, hM.resolved, hM.branch index hM.mem⟩
    obtain ⟨done, final, hrun, ⟨dead, hend⟩, hstop⟩ := absorb_induct hhost
      (by
        rintro done b current after targets more ⟨dead, hM⟩ hdone habs
        exact ⟨_, hM.takeOver hdone habs⟩)
      (array.size + 1) [index] _ ⟨[], hstart⟩
    have hlength : done.length ≠ [index].length + (array.size + 1) := by
      have := hend.length_le
      simp only [List.length_singleton]
      omega
    simp only [size_setCommand, hrun]
    refine (hend.makes calls h).of_not_chained fun i hi c => ?_
    exact hend.not_chained (hstop.resolve_left hlength) hi
  case h_2 => exact h

/-- Merging branches keeps the calls of every path that enters no branch from the side. -/
theorem MakesDirectly.mergeBranches {calls : List CallSite} (h : array.MakesDirectly calls)
    (hres : array.Resolved) : array.mergeBranches.MakesDirectly calls := by
  have hpass : array.mergeBranches.Resolved ∧ array.mergeBranches.MakesDirectly calls := by
    refine List.foldlRecOn (motive := fun b : CellArray => b.Resolved ∧ b.MakesDirectly calls) _ _
      ⟨hres, h⟩ fun b hb index _ => ?_
    exact ⟨(hb.1.mergeBranchAt index).1, hb.2.mergeBranchAt hb.1 index⟩
  exact hpass.2

/-- Merging branches makes no new call sequence, and keeps those of the paths that enter no branch
from the side. It loses none at all exactly if it loses no first call and no call that comes right
after another one. -/
theorem mergeBranches_makes_iff {hierarchy : Option ClassHierarchy} {method : MethodKey}
    {body : Body} {collapsed : CellArray} (h : ofBody hierarchy method body = .ok array)
    (hcollapse : array.collapseJumps = .ok collapsed) :
    (∀ calls, collapsed.mergeBranches.Makes calls → collapsed.Makes calls) ∧
      (∀ calls, collapsed.MakesDirectly calls → collapsed.mergeBranches.Makes calls) ∧
      ((∀ calls, collapsed.Makes calls → collapsed.mergeBranches.Makes calls) ↔
        (∀ site, collapsed.Makes [site] → collapsed.mergeBranches.Makes [site]) ∧
          ∀ calls site site', collapsed.Makes (calls ++ [site, site']) →
            Emits collapsed.mergeBranches.Step site.offset [site, site']) := by
  obtain ⟨collapsed', hrun, hres, -⟩ := exists_collapseJumps_of_ofBody h
  obtain rfl := Except.ok.inj (hrun.symm.trans hcollapse)
  refine ⟨fun calls => hres.mergeBranches.2.makes, fun calls hm => ?_, ?_⟩
  · exact (hm.mergeBranches hres).makes
  · exact (sited_step collapsed'.mergeBranches).emits_iff _ _

/-- Two branches in a row, the second one only entered from the first. -/
def chainBody : Body :=
  ⟨#[some ⟨"ifeq", ["3"], none⟩, some ⟨"ifne", ["4"], none⟩,
    some ⟨"invokestatic", [], some "// Method t/A.a:()V"⟩,
    some ⟨"invokestatic", [], some "// Method t/A.b:()V"⟩]⟩

/-- The cells of `chainBody`, which has no jumps. -/
def chainCells : CellArray where
  method := ⟨"t/A", "m:()V"⟩
  cells := #[⟨some 1, some (.branch [3])⟩, ⟨some 2, some (.branch [4])⟩,
    ⟨some 3, some (.call ⟨some "t/A", "a:()V"⟩)⟩, ⟨some 4, some (.call ⟨some "t/A", "b:()V"⟩)⟩,
    ⟨none, some .ret⟩]
  entrance := 0

/-- The path through both branches of `chainBody` enters the second one from the first, so the
merged branches make its calls. -/
theorem mergeBranches_makes_iff_chain :
    ofBody none ⟨"t/A", "m:()V"⟩ chainBody = .ok chainCells ∧
      chainCells.collapseJumps = .ok chainCells ∧
      chainCells.MakesDirectly [⟨2, ⟨some "t/A", "a:()V"⟩⟩, ⟨3, ⟨some "t/A", "b:()V"⟩⟩] ∧
      chainCells.mergeBranches.Makes [⟨2, ⟨some "t/A", "a:()V"⟩⟩, ⟨3, ⟨some "t/A", "b:()V"⟩⟩] := by
  have hcells : ofBody none ⟨"t/A", "m:()V"⟩ chainBody = .ok chainCells := by rfl
  have hcollapse : chainCells.collapseJumps = .ok chainCells := by rfl
  have hchained : ∀ i c, chainCells.Chained i c → i = 0 ∧ c = 1 := by
    rintro i c ⟨-, ⟨_, hi⟩, ⟨_, hc⟩, hfalls, -⟩
    have hlt : i < 5 := lt_size_of_command? hi
    match i, hlt with
    | 0, _ =>
      cases hfalls
      exact ⟨rfl, rfl⟩
    | 1, _ =>
      cases hfalls
      cases hc
    | 2, _ | 3, _ | 4, _ => cases hi
  have hsingle : ∀ p q, q ≠ 1 → ∀ i, chainCells.Chained i q → p = i ∨ p = q :=
    fun p q hq i hchain => absurd (hchained i q hchain).2 hq
  have hdirect : chainCells.MakesDirectly
      [⟨2, ⟨some "t/A", "a:()V"⟩⟩, ⟨3, ⟨some "t/A", "b:()V"⟩⟩] := by
    refine ⟨fun i hchain => absurd (hchained i 0 hchain).2 (by decide), 4, ?_⟩
    refine .silent (q := 1) ⟨⟨_, rfl, .decline rfl⟩, fun i hchain => ?_⟩ ?_
    · exact .inl (hchained i 1 hchain).1.symm
    · refine .silent (q := 2) ⟨⟨_, rfl, .decline rfl⟩, hsingle 1 2 (by decide)⟩ ?_
      refine .call (q := 3) ⟨⟨_, rfl, .call rfl⟩, hsingle 2 3 (by decide)⟩ ?_
      exact .call (q := 4) ⟨⟨_, rfl, .call rfl⟩, hsingle 3 4 (by decide)⟩ (.stop 4)
  exact ⟨hcells, hcollapse, hdirect, (mergeBranches_makes_iff hcells hcollapse).2.1 _ hdirect⟩

/-- A loop that is entered at its condition. The last branch of its body falls through to the
condition too. -/
def guardedLoop : Body :=
  ⟨#[some ⟨"goto", ["3"], none⟩, some ⟨"invokestatic", [], some "// Method t/A.a:()V"⟩,
    some ⟨"ifeq", ["4"], none⟩, some ⟨"ifne", ["1"], none⟩, some ⟨"return", [], none⟩]⟩

/-- The cells of `guardedLoop`, before its jump is collapsed. -/
def guardedLoopCells : CellArray where
  method := ⟨"t/A", "m:()V"⟩
  cells := #[⟨some 1, some (.jump 3)⟩, ⟨some 2, some (.call ⟨some "t/A", "a:()V"⟩)⟩,
    ⟨some 3, some (.branch [4])⟩, ⟨some 4, some (.branch [1])⟩, ⟨some 5, some .ret⟩,
    ⟨none, some .ret⟩]
  entrance := 0

/-- Merging the branches of `guardedLoop` loses its call, since the entrance moves past the
condition. -/
theorem guardedLoop_loses_call :
    ofBody none ⟨"t/A", "m:()V"⟩ guardedLoop = .ok guardedLoopCells ∧
      guardedLoopCells.collapseJumps = .ok { guardedLoopCells with entrance := 3 } ∧
      Makes { guardedLoopCells with entrance := 3 } [⟨1, ⟨some "t/A", "a:()V"⟩⟩] ∧
      ¬Makes (mergeBranches { guardedLoopCells with entrance := 3 })
        [⟨1, ⟨some "t/A", "a:()V"⟩⟩] := by
  refine ⟨by rfl, by rfl, ⟨2, ?_⟩, ?_⟩
  · refine .silent (q := 1) ⟨_, rfl, .choose (List.mem_singleton.mpr rfl)⟩ ?_
    exact .call ⟨_, rfl, .call rfl⟩ (.stop 2)
  · have hhalted : Halted (mergeBranches { guardedLoopCells with entrance := 3 }).Step 4 := by
      rintro site q ⟨command, hc, hm⟩
      cases hc
      cases hm
    rintro ⟨r, hp⟩
    cases hp with
    | silent hs _ => exact hhalted _ _ hs
    | call hs _ => exact hhalted _ _ hs

end CellArray

end CallNgrams
