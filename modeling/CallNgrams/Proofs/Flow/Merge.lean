import Mathlib.Data.List.Nodup
import Mathlib.Data.List.Perm.Subperm
import CallNgrams.Proofs.Flow.Redirect

/-!
# Merging branches

A branch takes over the targets of the branch that it falls through to, and every reference to that
branch moves past it. So nothing is invented: each step of the merged cells is a path of the cells
as they were.
-/

namespace CallNgrams

namespace CellArray

variable {array : CellArray} {i dest : Nat} {site : Option CallSite}

/-- A cell that holds a branch. -/
def IsBranch (array : CellArray) (i : Nat) : Prop :=
  ∃ targets, array.command? i = some (.branch targets)

/-- A branch goes to its fallthrough and its targets, and makes no call. -/
theorem step_branch {targets : List Nat} {next : Nat}
    (hc : array.command? i = some (.branch targets)) (hn : array.next? i = some next) :
    array.Step i site dest ↔ site = none ∧ (dest = next ∨ dest ∈ targets) := by
  constructor
  · rintro ⟨command, hc', hm⟩
    obtain rfl := Option.some.inj (hc.symm.trans hc')
    cases hm with
    | choose ht => exact ⟨rfl, .inr ht⟩
    | decline hd => exact ⟨rfl, .inl (Option.some.inj (hd.symm.trans hn))⟩
  · rintro ⟨rfl, rfl | ht⟩
    · exact ⟨_, hc, .decline hn⟩
    · exact ⟨_, hc, .choose ht⟩

/-- A command may replace another one in a resolved array if its destinations are resolved. -/
theorem Resolved.setCommand (h : array.Resolved) {command : Command}
    (hi : (array.command? i).isSome)
    (hdest : ∀ dest ∈ command.destinations, (array.command? dest).isSome)
    (hfalls : command.Falls → (array.next? i).isSome) :
    (array.setCommand i command).Resolved := by
  have hlt := lt_size_of_isSome hi
  have hsome : ∀ d, (array.command? d).isSome →
      ((array.setCommand i command).command? d).isSome := by
    intro d hd
    rw [command?_setCommand _ hlt]
    split
    · rfl
    · exact hd
  refine ⟨hsome _ h.entrance, ?_, ?_, ?_⟩
  · intro j dest hn
    rw [next?_setCommand] at hn
    exact hsome dest (h.next hn)
  · intro j dest command' hc hd
    rw [command?_setCommand _ hlt] at hc
    split at hc
    · obtain rfl := Option.some.inj hc
      exact hsome dest (hdest dest hd)
    · exact hsome dest (h.destination hc hd)
  · intro j command' hc hf
    rw [next?_setCommand]
    rw [command?_setCommand _ hlt] at hc
    split at hc
    case isTrue hij =>
      obtain rfl := Option.some.inj hc
      exact hij ▸ hfalls hf
    case isFalse => exact h.falls hc hf

/-- The branch at `index` falls through to another one at `current`, which falls through to
`after`. -/
structure Absorbable (array : CellArray) (index current after : Nat) (targets more : List Nat) :
    Prop where
  ne : current ≠ index
  host : array.command? index = some (.branch targets)
  guest : array.command? current = some (.branch more)
  enters : array.next? index = some current
  leaves : array.next? current = some after

/-- The targets of two branches in one, apart from the cell of the second one. -/
def allTargets (current : Nat) (targets more : List Nat) : List Nat :=
  Destinations.ofList ((targets ++ more).filter (· != current))

/-- The targets of both branches are there, but the second branch itself is not. -/
theorem mem_allTargets {current : Nat} {targets more : List Nat} :
    dest ∈ allTargets current targets more ↔ dest ≠ current ∧ (dest ∈ targets ∨ dest ∈ more) := by
  rw [allTargets, Destinations.mem_ofList, List.mem_filter, List.mem_append, bne_iff_ne, and_comm]

/-- The branch at `index` takes over the targets `more` of the branch at `current`, which references
then skip. -/
def takeOver (array : CellArray) (index current after : Nat) (targets more : List Nat) :
    CellArray :=
  (array.setCommand index (.branch (allTargets current targets more))).redirect current after

namespace Absorbable

variable {index current after : Nat} {targets more : List Nat}

theorem step_host_before (h : array.Absorbable index current after targets more) :
    array.Step index site dest ↔ site = none ∧ (dest = current ∨ dest ∈ targets) :=
  step_branch h.host h.enters

/-- The steps of the second branch before references skip it. -/
theorem step_guest_before (h : array.Absorbable index current after targets more) :
    array.Step current site dest ↔ site = none ∧ (dest = after ∨ dest ∈ more) :=
  step_branch h.guest h.leaves

/-- The fallthroughs of all cells but the second branch skip it. -/
theorem next?_of_ne (hi : i ≠ current) :
    (array.takeOver index current after targets more).next? i =
      (array.next? i).map (moved current after) := by
  rw [takeOver, next?_redirect_of_ne hi, next?_setCommand]

theorem next?_guest (h : array.Absorbable index current after targets more) :
    (array.takeOver index current after targets more).next? current = some after := by
  rw [takeOver, next?_redirect_old, next?_setCommand, h.leaves]

theorem next?_host (h : array.Absorbable index current after targets more) :
    (array.takeOver index current after targets more).next? index = some after := by
  rw [next?_of_ne h.ne.symm, h.enters, Option.map_some, moved_old]

/-- Branches stay branches, and no other command becomes one. -/
theorem isBranch_iff (h : array.Absorbable index current after targets more) :
    (array.takeOver index current after targets more).IsBranch i ↔ array.IsBranch i := by
  have hlt := lt_size_of_command? h.host
  rw [IsBranch, takeOver]
  simp only [command?_redirect, command?_setCommand _ hlt]
  split
  case isTrue hi =>
    subst i
    obtain ⟨targets', hr, -⟩ := Command.redirect_branch current after
      (allTargets current targets more)
    exact ⟨fun _ => ⟨targets, h.host⟩, fun _ => ⟨targets', by rw [Option.map_some, hr]⟩⟩
  case isFalse =>
    constructor
    · rintro ⟨targets', hb⟩
      obtain ⟨command, hc, hr⟩ := Option.map_eq_some_iff.mp hb
      obtain ⟨before, rfl⟩ := Command.redirect_eq_branch.mp ⟨targets', hr⟩
      exact ⟨before, hc⟩
    · rintro ⟨before, hc⟩
      obtain ⟨targets', hr, -⟩ := Command.redirect_branch current after before
      exact ⟨targets', by rw [hc, Option.map_some, hr]⟩

/-- A step of a third cell only has its destination moved. -/
theorem step_of_ne (h : array.Absorbable index current after targets more) (hi : i ≠ index)
    (hc : i ≠ current) :
    (array.takeOver index current after targets more).Step i site dest ↔
      ∃ d, array.Step i site d ∧ dest = moved current after d := by
  rw [takeOver, step_redirect_of_ne hc]
  simp only [Step, command?_setCommand _ (lt_size_of_command? h.host), if_neg hi.symm,
    next?_setCommand]

/-- The branch that takes over goes wherever one of the two went, apart from the other one. -/
theorem step_host (h : array.Absorbable index current after targets more) :
    (array.takeOver index current after targets more).Step index site dest ↔
      site = none ∧ (dest = after ∨ dest ≠ current ∧ (dest ∈ targets ∨ dest ∈ more)) := by
  have hlt := lt_size_of_command? h.host
  have hset : (array.setCommand index (.branch (allTargets current targets more))).command? index =
      some (.branch (allTargets current targets more)) := by
    rw [command?_setCommand _ hlt, if_pos rfl]
  rw [takeOver, step_redirect_of_ne h.ne.symm]
  simp only [step_branch hset (next?_setCommand _ ▸ h.enters), mem_allTargets]
  constructor
  · rintro ⟨d, ⟨rfl, rfl | hd⟩, rfl⟩
    · exact ⟨rfl, .inl moved_old⟩
    · rw [moved_of_ne hd.1]
      exact ⟨rfl, .inr hd⟩
  · rintro ⟨rfl, rfl | hd⟩
    · exact ⟨current, ⟨rfl, .inl rfl⟩, moved_old.symm⟩
    · exact ⟨dest, ⟨rfl, .inr hd⟩, (moved_of_ne hd.1).symm⟩

/-- The branch that is taken over still goes where it went. -/
theorem step_guest (h : array.Absorbable index current after targets more) :
    (array.takeOver index current after targets more).Step current site dest ↔
      site = none ∧ (dest = after ∨ ∃ d ∈ more, dest = moved current after d) := by
  have hlt := lt_size_of_command? h.host
  obtain ⟨more', hr, hmem⟩ := Command.redirect_branch current after more
  have hguest : (array.takeOver index current after targets more).command? current =
      some (.branch more') := by
    rw [takeOver, command?_redirect, command?_setCommand _ hlt, if_neg h.ne.symm, h.guest,
      Option.map_some, hr]
  rw [step_branch hguest h.next?_guest, hmem]

/-- Destinations still hold commands after the first branch has taken over. -/
theorem resolved (h : array.Absorbable index current after targets more)
    (hres : array.Resolved) : (array.takeOver index current after targets more).Resolved := by
  have hset : (array.setCommand index (.branch (allTargets current targets more))).Resolved := by
    refine hres.setCommand (by rw [h.host]; rfl) (fun dest hd => ?_) fun _ => by rw [h.enters]; rfl
    rcases (mem_allTargets.mp hd).2 with ht | hm
    · exact hres.destination h.host ht
    · exact hres.destination h.guest hm
  exact hset.redirect (hset.next (next?_setCommand _ ▸ h.leaves))

end Absorbable

/-! ## Nothing is invented -/

/-- Every path of `after` is one of `before`, and control gets from the entrance of `before` to that
of `after` without a call. -/
structure Refines (before after : CellArray) : Prop where
  path {p r : Nat} {calls : List CallSite} :
    Path after.Step p calls r → Path before.Step p calls r
  entrance : Path before.Step before.entrance [] after.entrance

namespace Refines

variable {a b c : CellArray}

theorem refl (a : CellArray) : Refines a a :=
  ⟨id, .stop _⟩

theorem trans (h : Refines a b) (h' : Refines b c) : Refines a c :=
  ⟨fun hp => h.path (h'.path hp), h.entrance.trans (h.path h'.entrance)⟩

theorem makes (h : Refines a b) {calls : List CallSite} : b.Makes calls → a.Makes calls := by
  rintro ⟨r, hp⟩
  exact ⟨r, h.entrance.trans (h.path hp)⟩

end Refines

/-- Taking over the targets of another branch refines an array. -/
theorem Absorbable.refines {index current after : Nat} {targets more : List Nat}
    (h : array.Absorbable index current after targets more) :
    Refines array (array.takeOver index current after targets more) := by
  have hmoved : ∀ d, Path array.Step d [] (moved current after d) := by
    intro d
    by_cases hd : d = current
    · rw [hd, moved_old]
      exact .single (h.step_guest_before.mpr ⟨rfl, .inl rfl⟩)
    · rw [moved_of_ne hd]
      exact .stop d
  refine ⟨fun hp => hp.expand fun p site q hs => ?_, hmoved array.entrance⟩
  by_cases hhost : p = index
  · subst p
    obtain ⟨rfl, hq⟩ := h.step_host.mp hs
    rcases hq with rfl | ⟨-, ht | hm⟩
    · exact ⟨current, h.step_host_before.mpr ⟨rfl, .inl rfl⟩,
        .single (h.step_guest_before.mpr ⟨rfl, .inl rfl⟩)⟩
    · exact ⟨q, h.step_host_before.mpr ⟨rfl, .inr ht⟩, .stop q⟩
    · exact ⟨current, h.step_host_before.mpr ⟨rfl, .inl rfl⟩,
        .single (h.step_guest_before.mpr ⟨rfl, .inr hm⟩)⟩
  · by_cases hguest : p = current
    · subst p
      obtain ⟨rfl, rfl | ⟨d, hd, rfl⟩⟩ := h.step_guest.mp hs
      · exact ⟨q, h.step_guest_before.mpr ⟨rfl, .inl rfl⟩, .stop q⟩
      · exact ⟨d, h.step_guest_before.mpr ⟨rfl, .inr hd⟩, hmoved d⟩
    · obtain ⟨d, hd, rfl⟩ := (h.step_of_ne hhost hguest).mp hs
      exact ⟨d, hd, hmoved d⟩

/-- A property of the visited cells and the array that each takeover keeps holds when the branch at
`index` has taken over what it can. Then it falls through to no branch but a visited one, unless
the fuel is used up. -/
theorem absorb_induct {index : Nat} {P : List Nat → CellArray → Prop}
    (hhost : ∀ done array, P done array → index ∈ done ∧ array.Resolved ∧ array.IsBranch index)
    (hstep : ∀ done array current after targets more, P done array → current ∉ done →
      array.Absorbable index current after targets more →
        P (current :: done) (array.takeOver index current after targets more))
    (fuel : Nat) (done : List Nat) (array : CellArray) (h : P done array) :
    ∃ done' final, absorb index fuel done (array.next? index) array = final ∧ P done' final ∧
      (done'.length = done.length + fuel ∨
        ∀ current, final.next? index = some current → final.IsBranch current →
          current ∈ done') := by
  induction fuel generalizing done array with
  | zero => exact ⟨done, array, rfl, h, .inl rfl⟩
  | succ fuel ih =>
    obtain ⟨hmem, hres, targets, hbranch⟩ := hhost done array h
    obtain ⟨current, hn⟩ := Option.isSome_iff_exists.mp (hres.falls hbranch trivial)
    rw [hn, absorb]
    split
    case isTrue hdone =>
      refine ⟨done, array, rfl, h, .inr fun current' hn' _ => ?_⟩
      obtain rfl := Option.some.inj (hn.symm.trans hn')
      exact hdone
    case isFalse hdone =>
      split
      case h_1 more hguest =>
        obtain ⟨after, ha⟩ := Option.isSome_iff_exists.mp (hres.falls hguest trivial)
        have habs : array.Absorbable index current after targets more :=
          ⟨fun he => hdone (he ▸ hmem), hbranch, hguest, hn, ha⟩
        have hnew := hstep done array current after targets more h hdone habs
        have htargets : array.targets index = targets := by rw [CellArray.targets, hbranch]
        obtain ⟨done', final, hrun, hP, hend⟩ := ih (current :: done) _ hnew
        rw [habs.next?_host] at hrun
        simp only [ha, htargets]
        refine ⟨done', final, hrun, hP, hend.imp_left fun hlen => ?_⟩
        rw [hlen, List.length_cons]
        omega
      case h_2 hguest =>
        refine ⟨done, array, rfl, h, .inr fun current' hn' hb => ?_⟩
        obtain rfl := Option.some.inj (hn.symm.trans hn')
        obtain ⟨more, hmore⟩ := hb
        exact absurd hmore (hguest more)

section SortTargets

variable {targets : List Nat}

/-- Sorting the targets of a branch changes no step. -/
theorem step_sortTargets (hc : array.command? i = some (.branch targets)) :
    (array.setCommand i (.branch (Destinations.ofList targets))).Step = array.Step := by
  funext p site dest
  refine propext ?_
  simp only [Step, command?_setCommand _ (lt_size_of_command? hc), next?_setCommand]
  split
  case isTrue hi =>
    subst p
    constructor
    · rintro ⟨_, hcmd, hm⟩
      obtain rfl := Option.some.inj hcmd
      cases hm with
      | choose ht => exact ⟨_, hc, .choose (Destinations.mem_ofList.mp ht)⟩
      | decline hn => exact ⟨_, hc, .decline hn⟩
    · rintro ⟨_, hcmd, hm⟩
      obtain rfl := Option.some.inj (hc.symm.trans hcmd)
      cases hm with
      | choose ht => exact ⟨_, rfl, .choose (Destinations.mem_ofList.mpr ht)⟩
      | decline hn => exact ⟨_, rfl, .decline hn⟩
  case isFalse => exact Iff.rfl

theorem isBranch_sortTargets (hc : array.command? i = some (.branch targets)) (j : Nat) :
    (array.setCommand i (.branch (Destinations.ofList targets))).IsBranch j ↔ array.IsBranch j := by
  simp only [IsBranch, command?_setCommand _ (lt_size_of_command? hc)]
  split
  case isTrue hi =>
    subst j
    exact ⟨fun _ => ⟨targets, hc⟩, fun _ => ⟨_, rfl⟩⟩
  case isFalse => exact Iff.rfl

/-- Sorting the targets of a branch leaves all destinations. -/
theorem Resolved.sortTargets (h : array.Resolved)
    (hc : array.command? i = some (.branch targets)) :
    (array.setCommand i (.branch (Destinations.ofList targets))).Resolved := by
  refine h.setCommand (by rw [hc]; rfl) (fun dest hd => ?_) fun _ => h.falls hc trivial
  exact h.destination hc (Destinations.mem_ofList.mp hd)

end SortTargets

/-- Merging at one cell keeps destinations and refines the array. -/
theorem Resolved.mergeBranchAt (h : array.Resolved) (index : Nat) :
    (array.mergeBranchAt index).Resolved ∧ Refines array (array.mergeBranchAt index) := by
  rw [CellArray.mergeBranchAt]
  split
  case h_1 targets hc =>
    have hsorted : Refines array (array.setCommand index
        (.branch (Destinations.ofList targets))) := by
      refine ⟨fun hp => ?_, .stop _⟩
      rwa [step_sortTargets hc] at hp
    obtain ⟨done, final, hrun, ⟨-, hres, -, href⟩, -⟩ := absorb_induct
      (P := fun done b => index ∈ done ∧ b.Resolved ∧ b.IsBranch index ∧ Refines array b)
      (fun _ _ hP => ⟨hP.1, hP.2.1, hP.2.2.1⟩)
      (fun done b current after targets more hP _ habs =>
        ⟨List.mem_cons_of_mem _ hP.1, habs.resolved hP.2.1, habs.isBranch_iff.mpr hP.2.2.1,
          hP.2.2.2.trans habs.refines⟩)
      (array.size + 1) [index] (array.setCommand index (.branch (Destinations.ofList targets)))
      ⟨List.mem_singleton.mpr rfl, h.sortTargets hc,
        (isBranch_sortTargets hc index).mpr ⟨targets, hc⟩, hsorted⟩
    simp only [size_setCommand, hrun]
    exact ⟨hres, href⟩
  case h_2 => exact ⟨h, .refl array⟩

/-- Merging branches keeps destinations resolved and makes no call sequence that was not there. -/
theorem Resolved.mergeBranches (h : array.Resolved) :
    array.mergeBranches.Resolved ∧ Refines array array.mergeBranches := by
  refine List.foldlRecOn (motive := fun b => b.Resolved ∧ Refines array b) _ _
    ⟨h, .refl array⟩ fun b hb index _ => ?_
  obtain ⟨hres, href⟩ := hb.1.mergeBranchAt index
  exact ⟨hres, hb.2.trans href⟩

end CellArray

end CallNgrams
