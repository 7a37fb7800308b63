import CallNgrams.Proofs.Flow.Merge
import CallNgrams.Proofs.Flow.Reach

/-!
# Passes behind the walk

The walk over reachable cells is made once, before branches are merged and repeated calls are
skipped. Both passes move references to a cell on to its own fallthrough, and a branch takes over
the targets of a branch that it falls through to. So each new edge follows a way that was there
before, from unreachable cells too, and no cell loses its command or its fallthrough. The walk would
succeed again, and it would find no further cells.
-/

namespace CallNgrams

open Relation

/-- A command whose destinations have been moved goes where it went before, or on from there. -/
theorem Command.exists_move_of_redirect {old new i dest : Nat} {next : Option Nat}
    {command : Command} {site : Option CallSite}
    (h : (command.redirect old new).Moves i next site dest) :
    ∃ d, command.Moves i next site d ∧ (dest = d ∨ dest = moved old new d) := by
  cases command with
  | ret | raise => cases h
  | jump target =>
    cases h
    exact ⟨target, .jump, .inr rfl⟩
  | branch targets =>
    obtain ⟨targets', hr, hmem⟩ := redirect_branch old new targets
    rw [hr] at h
    cases h with
    | choose ht =>
      obtain ⟨d, hd, rfl⟩ := (hmem dest).mp ht
      exact ⟨d, .choose hd, .inr rfl⟩
    | decline hn => exact ⟨dest, .decline hn, .inl rfl⟩
  | call target =>
    cases h with
    | call hn => exact ⟨dest, .call hn, .inl rfl⟩

namespace CellArray

variable {array a b c : CellArray} {i j index : Nat}

/-- Every way of the later array is one of the earlier array, and where control could go on it still
can. -/
structure Narrows (a b : CellArray) : Prop where
  entrance : ReflTransGen a.Edge a.entrance b.entrance
  edge {i j : Nat} : b.Edge i j → ReflTransGen a.Edge i j
  goesOn {i : Nat} : (∃ out, a.edges i = .ok out) → ∃ out, b.edges i = .ok out

namespace Narrows

theorem refl (a : CellArray) : Narrows a a :=
  ⟨.refl, .single, id⟩

theorem way (h : Narrows a b) (hij : ReflTransGen b.Edge i j) : ReflTransGen a.Edge i j :=
  reflTransGen_closed (fun _ _ => h.edge) _ _ hij

theorem trans (h : Narrows a b) (h' : Narrows b c) : Narrows a c where
  entrance := h.entrance.trans (h.way h'.entrance)
  edge hij := h.way (h'.edge hij)
  goesOn hi := h'.goesOn (h.goesOn hi)

/-- No cell becomes reachable. -/
theorem reachable (h : Narrows a b) (hi : b.Reachable i) : a.Reachable i :=
  h.entrance.trans (h.way hi)

/-- Control can still go on wherever it gets. -/
theorem walkable (h : Narrows a b) (ha : a.Walkable) : b.Walkable :=
  fun i hi => h.goesOn (ha i (h.reachable hi))

end Narrows

/-! ## One change -/

/-- Moving the references to a cell on to a cell that it leads to makes no new way. -/
theorem narrows_redirect {old new : Nat} (hedge : array.Edge old new) :
    Narrows array (array.redirect old new) := by
  have hmoved (d : Nat) : ReflTransGen array.Edge d (moved old new d) := by
    by_cases hd : d = old
    · rw [hd, moved_old]
      exact .single hedge
    · rw [moved_of_ne hd]
  refine ⟨hmoved array.entrance, ?_, ?_⟩
  · rintro i j ⟨site, hstep⟩
    have hback : ∃ d, array.Step i site d ∧ (j = d ∨ j = moved old new d) := by
      by_cases hi : i = old
      · subst i
        obtain ⟨redirected, hr, hm⟩ := hstep
        obtain ⟨command, hc, rfl⟩ := exists_command?_of_redirect hr
        rw [next?_redirect_old] at hm
        obtain ⟨d, hd, hj⟩ := Command.exists_move_of_redirect hm
        exact ⟨d, ⟨command, hc, hd⟩, hj⟩
      · obtain ⟨d, hd, hj⟩ := (step_redirect_of_ne hi).mp hstep
        exact ⟨d, hd, .inr hj⟩
    obtain ⟨d, hd, hj⟩ := hback
    have hfirst : ReflTransGen array.Edge i d := .single ⟨site, hd⟩
    rcases hj with rfl | rfl
    · exact hfirst
    · exact hfirst.trans (hmoved d)
  · intro i
    simp only [exists_edges_iff]
    rintro ⟨command, hc, hfalls⟩
    refine ⟨command.redirect old new, ?_, fun hf => ?_⟩
    · rw [command?_redirect, hc, Option.map_some]
    · have hnext := hfalls (Command.falls_redirect.mp hf)
      by_cases hi : i = old
      · rwa [hi, next?_redirect_old, ← hi]
      · rwa [next?_redirect_of_ne hi, Option.isSome_map]

/-- Giving a branch targets that it has ways to makes no new way. -/
theorem narrows_setCommand {targets : List Nat} (hbranch : array.IsBranch index)
    (htargets : ∀ target ∈ targets, ReflTransGen array.Edge index target) :
    Narrows array (array.setCommand index (.branch targets)) := by
  obtain ⟨before, hbefore⟩ := hbranch
  have hlt := lt_size_of_command? hbefore
  refine ⟨.refl, ?_, ?_⟩
  · rintro i j ⟨site, command, hc, hm⟩
    rw [command?_setCommand _ hlt] at hc
    rw [next?_setCommand] at hm
    split at hc
    case isTrue hi =>
      subst i
      obtain rfl := Option.some.inj hc
      cases hm with
      | choose ht => exact htargets j ht
      | decline hn => exact .single ⟨none, _, hbefore, .decline hn⟩
    case isFalse => exact .single ⟨site, command, hc, hm⟩
  · intro i
    simp only [exists_edges_iff, next?_setCommand, command?_setCommand _ hlt]
    rintro ⟨command, hc, hfalls⟩
    split
    case isTrue hi =>
      subst i
      obtain rfl := Option.some.inj (hbefore.symm.trans hc)
      exact ⟨_, rfl, hfalls⟩
    case isFalse => exact ⟨command, hc, hfalls⟩

/-! ## The passes -/

/-- Taking over the branches that a branch falls through to makes no new way, also if one of them
has no fallthrough. -/
theorem narrows_absorb (fuel : Nat) {done : List Nat} (hbranch : array.IsBranch index)
    (hmem : index ∈ done) : Narrows array (absorb index fuel done (array.next? index) array) := by
  induction fuel generalizing done array with
  | zero => exact .refl array
  | succ fuel ih =>
    cases hn : array.next? index with
    | none => exact .refl array
    | some current =>
      rw [absorb]
      split
      case isTrue => exact .refl array
      case isFalse hdone =>
        split
        case h_2 => exact .refl array
        case h_1 more hguest =>
          obtain ⟨targets, hhost⟩ := hbranch
          have hne : current ≠ index := fun he => hdone (he ▸ hmem)
          have hown : array.targets index = targets := by rw [CellArray.targets, hhost]
          have henter : ReflTransGen array.Edge index current :=
            .single ⟨none, _, hhost, .decline hn⟩
          have hmid : Narrows array
              (array.setCommand index (.branch (allTargets current targets more))) := by
            refine narrows_setCommand ⟨targets, hhost⟩ fun target ht => ?_
            rcases (mem_allTargets.mp ht).2 with ht | ht
            · exact .single ⟨none, _, hhost, .choose ht⟩
            · exact henter.tail ⟨none, _, hguest, .choose ht⟩
          simp only [hown]
          cases hafter : array.next? current with
          | none =>
            -- The chain ends here, and no reference moves.
            have hstop : ∀ fuel done rest, absorb index fuel done none rest = rest := by
              intro fuel done rest
              cases fuel <;> rfl
            rw [hstop]
            exact hmid
          | some after =>
            have habs : array.Absorbable index current after targets more :=
              ⟨hne, hhost, hguest, hn, hafter⟩
            have hleave : (array.setCommand index
                (.branch (allTargets current targets more))).Edge current after := by
              refine ⟨none, .branch more, ?_, .decline ?_⟩
              · rw [command?_setCommand _ (lt_size_of_command? hhost), if_neg hne.symm, hguest]
              · rw [next?_setCommand, hafter]
            have hrest := ih (habs.isBranch_iff.mpr ⟨targets, hhost⟩)
              (List.mem_cons_of_mem current hmem)
            rw [habs.next?_host] at hrest
            exact (hmid.trans (narrows_redirect hleave)).trans hrest

/-- Merging branches at one cell opens no new way. -/
theorem narrows_mergeBranchAt (array : CellArray) (index : Nat) :
    Narrows array (array.mergeBranchAt index) := by
  rw [mergeBranchAt]
  split
  case h_1 targets hc =>
    have hsorted : Narrows array (array.setCommand index (.branch (Destinations.ofList targets))) :=
      narrows_setCommand ⟨targets, hc⟩ fun target ht =>
        .single ⟨none, _, hc, .choose (Destinations.mem_ofList.mp ht)⟩
    exact hsorted.trans (narrows_absorb _ ((isBranch_sortTargets hc index).mpr ⟨targets, hc⟩)
      (List.mem_singleton.mpr rfl))
  case h_2 => exact .refl array

/-- Merging branches makes no new way. -/
theorem narrows_mergeBranches (array : CellArray) : Narrows array array.mergeBranches :=
  List.foldlRecOn (motive := Narrows array) _ _ (.refl array) fun b hb index _ =>
    hb.trans (b.narrows_mergeBranchAt index)

/-- Skipping a call makes no new way. -/
theorem narrows_skip {target : CallTarget} (hcall : array.command? i = some (.call target)) :
    Narrows array (array.skip i (array.next? i)) := by
  cases hnext : array.next? i with
  | none => exact .refl array
  | some next => exact narrows_redirect ⟨_, _, hcall, .call hnext⟩

/-- Skipping repeats opens no new way. -/
theorem narrows_skipRepeats (target : CallTarget) (fuel : Nat) (done : List Nat)
    (next : Option Nat) (array : CellArray) :
    Narrows array (skipRepeats target fuel done next array) := by
  induction fuel generalizing done next array with
  | zero => exact .refl array
  | succ fuel ih =>
    cases next with
    | none => exact .refl array
    | some current =>
      rw [skipRepeats]
      split
      case isTrue => exact .refl array
      case isFalse =>
        split
        case h_2 => exact .refl array
        case h_1 other hcall =>
          refine Narrows.trans ?_ (ih _ _ _)
          split
          · exact narrows_skip hcall
          · exact .refl array

/-- Skipping repeated calls makes no new way. -/
theorem narrows_removeRepetitions (array : CellArray) : Narrows array array.removeRepetitions := by
  refine List.foldlRecOn (motive := Narrows array) _ _ (.refl array) fun b hb index _ => ?_
  rw [removeRepetitionAt]
  split
  · exact hb.trans (narrows_skipRepeats _ _ _ _ b)
  · exact hb

/-! ## Sequences of passes -/

/-- A pass that may run when the walk has succeeded. -/
inductive LatePass where
  | mergeBranches
  | removeRepetitions
deriving DecidableEq, Repr

/-- The cells after a pass. -/
def LatePass.run : LatePass → CellArray → CellArray
  | .mergeBranches, array => array.mergeBranches
  | .removeRepetitions, array => array.removeRepetitions

/-- The cells after several passes, one after the other. -/
def runPasses (array : CellArray) (passes : List LatePass) : CellArray :=
  passes.foldl (fun array pass => pass.run array) array

/-- The passes of a compilation behind the walk. -/
def latePasses (removeRepetition : Bool) : List LatePass :=
  if removeRepetition then [.mergeBranches, .removeRepetitions] else [.mergeBranches]

/-- No sequence of late passes opens a new way. -/
theorem narrows_runPasses (array : CellArray) (passes : List LatePass) :
    Narrows array (array.runPasses passes) := by
  refine List.foldlRecOn (motive := Narrows array) _ _ (.refl array) fun b hb pass _ => ?_
  cases pass with
  | mergeBranches => exact hb.trans b.narrows_mergeBranches
  | removeRepetitions => exact hb.trans b.narrows_removeRepetitions

/-- Once the walk has succeeded, it succeeds after any sequence of passes, and every cell that is
reachable then was reachable before. So the merge points are found, and a compilation that has got
past the walk can only fail when it links the cells. -/
theorem checkReachable_runPasses (h : array.checkReachable = .ok ()) (passes : List LatePass) :
    (array.runPasses passes).checkReachable = .ok () ∧
      (∀ i, (array.runPasses passes).Reachable i → array.Reachable i) ∧
      (∃ points, (array.runPasses passes).mergePoints = .ok points) ∧
      ∀ (source : CellArray) (removeRepetition : Bool), source.collapseJumps = .ok array →
        ∃ points, (array.runPasses (latePasses removeRepetition)).mergePoints = .ok points ∧
          source.toGraph removeRepetition =
            (array.runPasses (latePasses removeRepetition)).link points := by
  have hwalk (passes : List LatePass) : (array.runPasses passes).Walkable :=
    (array.narrows_runPasses passes).walkable (checkReachable_eq_ok_iff.mp h)
  refine ⟨checkReachable_eq_ok_iff.mpr (hwalk passes),
    fun i hi => (array.narrows_runPasses passes).reachable hi,
    exists_mergePoints_iff.mpr (hwalk passes), fun source removeRepetition hcollapse => ?_⟩
  obtain ⟨points, hpoints⟩ := exists_mergePoints_iff.mpr (hwalk (latePasses removeRepetition))
  have hlate : array.runPasses (latePasses removeRepetition) =
      if removeRepetition then array.mergeBranches.removeRepetitions
      else array.mergeBranches := by
    cases removeRepetition <;> rfl
  refine ⟨points, hpoints, ?_⟩
  rw [hlate] at hpoints ⊢
  rw [toGraph, hcollapse]
  simp only [bind, Except.bind, h, hpoints]

/-- Two branches in a row and two equal calls in a row, both of which unreachable cells run into. -/
def strayArray : CellArray where
  method := ⟨"t/A", "m:()V"⟩
  cells := #[⟨some 1, some (.branch [3])⟩, ⟨some 2, some (.branch [4])⟩,
    ⟨some 3, some (.call ⟨none, "a:()V"⟩)⟩, ⟨some 4, some (.call ⟨none, "a:()V"⟩)⟩,
    ⟨none, some .ret⟩, ⟨some 1, some (.branch [0])⟩, ⟨some 2, some (.call ⟨none, "a:()V"⟩)⟩]
  entrance := 0

/-- In `strayArray` the passes also move references for the sake of unreachable cells, and the walk
still succeeds after them. -/
theorem checkReachable_runPasses_stray :
    strayArray.checkReachable = .ok () ∧ strayArray.collapseJumps = .ok strayArray ∧
      (strayArray.runPasses (latePasses true)).checkReachable = .ok () ∧
      strayArray.runPasses (latePasses true) ≠ strayArray ∧
      ∃ points, (strayArray.runPasses (latePasses true)).mergePoints = .ok points ∧
        strayArray.toGraph true = (strayArray.runPasses (latePasses true)).link points := by
  have hcheck : strayArray.checkReachable = .ok () := by decide +kernel
  have hcollapse : strayArray.collapseJumps = .ok strayArray := by decide +kernel
  obtain ⟨hkept, -, -, hgraph⟩ := checkReachable_runPasses hcheck (latePasses true)
  exact ⟨hcheck, hcollapse, hkept, by decide +kernel, hgraph strayArray true hcollapse⟩

end CellArray

end CallNgrams
