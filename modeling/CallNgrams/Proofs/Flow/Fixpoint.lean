import Mathlib.Data.Finset.Card
import Mathlib.Data.Finset.Range
import CallNgrams.Proofs.Flow.Landing
import CallNgrams.Proofs.Flow.Merge

/-!
# Collapsing jumps comes to an end and stays there

A pass that simplifies a branch leaves fewer branches, so there is a last pass, which simplifies
none. In that pass no landing changes: a jump is retargeted to where it lands, and branches stay
branches. So when a destination is replaced by its landing, this stays its landing until the pass is
over, and nothing is left to do for another pass.
-/

namespace CallNgrams

namespace Destinations

theorem pairwise_insert {indices : List Nat} (h : indices.Pairwise (· < ·)) (index : Nat) :
    (insert index indices).Pairwise (· < ·) := by
  induction indices with
  | nil => exact List.pairwise_singleton _ index
  | cons least rest ih =>
    obtain ⟨hleast, hrest⟩ := List.pairwise_cons.mp h
    unfold insert
    split
    case isTrue hlt =>
      refine List.pairwise_cons.mpr ⟨fun i hi => ?_, h⟩
      rcases List.mem_cons.mp hi with rfl | hi
      · exact hlt
      · exact hlt.trans (hleast i hi)
    case isFalse hle =>
      split
      case isTrue => exact h
      case isFalse hne =>
        refine List.pairwise_cons.mpr ⟨fun i hi => ?_, ih hrest⟩
        rcases mem_insert.mp hi with rfl | hi
        · omega
        · exact hleast i hi

/-- Lists of destinations are strictly ascending. -/
theorem pairwise_ofList (indices : List Nat) : (ofList indices).Pairwise (· < ·) := by
  induction indices with
  | nil => exact .nil
  | cons index rest ih => exact pairwise_insert ih index

/-- A strictly ascending list is left as it is. -/
theorem ofList_of_pairwise {indices : List Nat} (h : indices.Pairwise (· < ·)) :
    ofList indices = indices := by
  induction indices with
  | nil => rfl
  | cons index rest ih =>
    obtain ⟨hleast, hrest⟩ := List.pairwise_cons.mp h
    change insert index (ofList rest) = index :: rest
    rw [ih hrest]
    cases rest with
    | nil => rfl
    | cons second rest => rw [insert, if_pos (hleast second List.mem_cons_self)]

end Destinations

namespace CellArray

variable {a b array : CellArray} {i commands : Nat} {simplified : Bool}

theorem setNext_self (i : Nat) (array : CellArray) : array.setNext i (array.next? i) = array := by
  have hcells : array.cells.modify i (fun cell => { cell with next := array.next? i }) =
      array.cells := by
    apply Array.ext_getElem?
    intro j
    rw [Array.getElem?_modify]
    split
    case isTrue hj =>
      subst j
      rw [next?]
      cases array.cells[i]? <;> rfl
    case isFalse => rfl
  rw [setNext, hcells]

/-- Writing back the command of a cell changes nothing. -/
theorem setCommand_self {command : Command} (h : array.command? i = some command) :
    array.setCommand i command = array := by
  have hcells : array.cells.modify i (fun cell => { cell with command := some command }) =
      array.cells := by
    apply Array.ext_getElem?
    intro j
    rw [Array.getElem?_modify]
    split
    case isTrue hj =>
      subst j
      rw [command?] at h
      obtain ⟨cell, hcell, hcommand⟩ := Option.bind_eq_some_iff.mp h
      rw [hcell, Option.map_some, ← hcommand]
    case isFalse => rfl
  rw [setCommand, hcells]

/-! ## One cell -/

/-- What becomes of a cell with the given new fallthrough: a jump is retargeted to its landing; a
branch keeps the landings of its targets but for the following index, unless only the fallthrough is
left, which it then jumps to; and other commands stay. -/
inductive Collapse (a : CellArray) (i : Nat) (next : Option Nat) : CellArray → Bool → Prop where
  | keep : (∀ target, a.command? i ≠ some (.jump target)) →
      (∀ targets, a.command? i ≠ some (.branch targets)) →
      Collapse a i next (a.setNext i next) false
  | retarget {target last : Nat} : a.command? i = some (.jump target) → a.Lands target last →
      Collapse a i next ((a.setNext i next).setCommand i (.jump last)) false
  | choose {targets dests : List Nat} : a.command? i = some (.branch targets) →
      (∀ dest ∈ dests, dest ≠ i + 1 ∧ ∃ target ∈ targets, a.Lands target dest) →
      dests.Pairwise (· < ·) → dests ≠ [] → (∀ dest, next = some dest → dests ≠ [dest]) →
      Collapse a i next ((a.setNext i next).setCommand i (.branch dests)) false
  | simplify {targets : List Nat} {last : Nat} : a.command? i = some (.branch targets) →
      Collapse a i next ((a.setNext i next).setCommand i (.jump last)) true

theorem commandCount_setNext (next : Option Nat) :
    (a.setNext i next).commandCount = a.commandCount :=
  commandCount_congr (size_setNext next) fun k => by rw [command?_setNext]

/-- The new fallthrough of a cell is where the old one lands. -/
theorem finalNext_eq_ok (hcommands : a.commandCount ≤ commands) {next : Option Nat}
    (h : a.finalNext commands i = .ok next) : Option.Rel a.Lands (a.next? i) next := by
  rw [finalNext] at h
  split at h
  case h_1 dest hn =>
    obtain ⟨last, hlast, rfl⟩ := exists_of_map_eq_ok h
    rw [hn]
    exact .some ((finalDestination_eq_ok_iff hcommands).mp hlast)
  case h_2 hn =>
    obtain rfl := Except.ok.inj h
    rw [hn]
    exact .none

/-- Collapsing a cell does one of the changes that `Collapse` lists. -/
theorem collapse_of_collapseCell (hcommands : a.commandCount ≤ commands) (hi : i < a.size)
    (h : collapseCell commands a i = .ok (b, simplified)) :
    ∃ next, Option.Rel a.Lands (a.next? i) next ∧ a.Collapse i next b simplified := by
  obtain ⟨next, hnext, h⟩ := exists_of_bind_eq_ok h
  refine ⟨next, finalNext_eq_ok hcommands hnext, ?_⟩
  have hread : (a.setNext i next).next? i = next := by rw [next?_setNext next hi, if_pos rfl]
  have hlands {dest last : Nat}
      (hlast : (a.setNext i next).finalDestination commands dest = .ok last) :
      a.Lands dest last := by
    rw [finalDestination_eq_ok_iff (by rwa [commandCount_setNext])] at hlast
    exact hlast.congr (fun k => by rw [command?_setNext]) fun k target => by rw [command?_setNext]
  simp only [command?_setNext] at h
  split at h
  case h_1 target hjump =>
    obtain ⟨last, hlast, h⟩ := exists_of_bind_eq_ok h
    obtain ⟨rfl, rfl⟩ := Prod.mk.inj (Except.ok.inj h)
    exact .retarget hjump (hlands hlast)
  case h_2 targets hbranch =>
    obtain ⟨found, hfound, h⟩ := exists_of_bind_eq_ok h
    have hdests : ∀ dest ∈ Destinations.ofList (found.filter (· != i + 1)),
        dest ≠ i + 1 ∧ ∃ target ∈ targets, a.Lands target dest := by
      intro dest hdest
      rw [Destinations.mem_ofList, List.mem_filter, bne_iff_ne] at hdest
      obtain ⟨target, htarget, hlast⟩ := exists_of_mem_mapM hfound dest hdest.1
      exact ⟨hdest.2, target, htarget, hlands hlast⟩
    have hsorted := Destinations.pairwise_ofList (found.filter (· != i + 1))
    rw [hread] at h
    cases next with
    | none =>
      simp only at h
      split at h
      · cases h
      case isFalse hempty =>
        obtain ⟨rfl, rfl⟩ := Prod.mk.inj (Except.ok.inj h)
        exact .choose hbranch hdests hsorted (by simpa using hempty) (by simp)
    | some dest =>
      simp only at h
      split at h
      · obtain ⟨rfl, rfl⟩ := Prod.mk.inj (Except.ok.inj h)
        exact .simplify hbranch
      case isFalse hmany =>
        obtain ⟨rfl, rfl⟩ := Prod.mk.inj (Except.ok.inj h)
        simp only [Bool.or_eq_true, List.isEmpty_iff, beq_iff_eq, not_or] at hmany
        refine .choose hbranch hdests hsorted hmany.1 ?_
        rintro _ ⟨⟩
        exact hmany.2
  case h_3 hjump hbranch =>
    obtain ⟨rfl, rfl⟩ := Prod.mk.inj (Except.ok.inj h)
    exact .keep hjump hbranch

namespace Collapse

variable {next : Option Nat}

/-- No other cell is changed. -/
theorem agreeBut (h : a.Collapse i next b simplified) (hi : i < a.size) : AgreeBut i a b := by
  have hnext := agreeBut_setNext next hi
  cases h with
  | keep => exact hnext
  | retarget | choose | simplify =>
    exact hnext.trans (agreeBut_setCommand _ (by rwa [size_setNext]))

theorem next?_self (h : a.Collapse i next b simplified) (hi : i < a.size) : b.next? i = next := by
  have hread : (a.setNext i next).next? i = next := by rw [next?_setNext next hi, if_pos rfl]
  cases h with
  | keep => exact hread
  | retarget | choose | simplify => rw [next?_setCommand, hread]

theorem command?_set (command : Command) (hi : i < a.size) :
    ((a.setNext i next).setCommand i command).command? i = some command := by
  rw [command?_setCommand command (by rwa [size_setNext]), if_pos rfl]

theorem isSome (h : a.Collapse i next b simplified) (hi : i < a.size) (k : Nat) :
    (b.command? k).isSome = (a.command? k).isSome := by
  by_cases hk : k = i
  · subst k
    cases h with
    | keep => rw [command?_setNext]
    | retarget hc | choose hc | simplify hc =>
      rw [command?_set _ hi, hc]
      rfl
  · rw [(h.agreeBut hi).command? k hk]

theorem commandCount (h : a.Collapse i next b simplified) (hi : i < a.size) :
    b.commandCount = a.commandCount :=
  commandCount_congr (h.agreeBut hi).size (h.isSome hi)

/-- No command becomes a branch. -/
theorem isBranch (h : a.Collapse i next b simplified) (hi : i < a.size) {k : Nat}
    (hk : b.IsBranch k) : a.IsBranch k := by
  obtain ⟨targets, hc⟩ := hk
  by_cases hki : k = i
  · subst k
    cases h with
    | keep => exact ⟨targets, by rwa [command?_setNext] at hc⟩
    | choose hbranch | simplify hbranch => exact ⟨_, hbranch⟩
    | retarget =>
      rw [command?_set _ hi] at hc
      cases hc
  · exact ⟨targets, by rwa [(h.agreeBut hi).command? k hki] at hc⟩

/-- A simplified branch is one no more. -/
theorem not_isBranch (h : a.Collapse i next b true) (hi : i < a.size) :
    a.IsBranch i ∧ ¬b.IsBranch i := by
  cases h with
  | simplify hbranch =>
    refine ⟨⟨_, hbranch⟩, ?_⟩
    rintro ⟨targets, hc⟩
    rw [command?_set _ hi] at hc
    cases hc

/-- If no branch is simplified, no landing changes. -/
theorem lands (h : a.Collapse i next b false) (hi : i < a.size) {dest last : Nat}
    (hlast : a.Lands dest last) : b.Lands dest last := by
  have hagree := h.agreeBut hi
  have hsome := h.isSome hi
  cases h with
  | keep =>
    exact hlast.congr hsome fun k target => by rw [command?_setNext]
  | retarget hjump htarget => exact .retarget hjump htarget hagree (command?_set _ hi) hlast
  | choose hbranch =>
    refine hlast.congr hsome fun k target => ?_
    by_cases hk : k = i
    · rw [hk, command?_set _ hi, hbranch]
      simp
    · rw [hagree.command? k hk]

end Collapse

/-! ## Cells with nothing left to collapse -/

/-- Every destination of a cell lands at itself, and a branch cannot be simplified. -/
structure SettledAt (array : CellArray) (i : Nat) : Prop where
  next {dest : Nat} : array.next? i = some dest → array.Lands dest dest
  jump {target : Nat} : array.command? i = some (.jump target) → array.Lands target target
  target {targets : List Nat} : array.command? i = some (.branch targets) →
    ∀ target ∈ targets, target ≠ i + 1 ∧ array.Lands target target
  sorted {targets : List Nat} : array.command? i = some (.branch targets) →
    targets.Pairwise (· < ·)
  nonempty {targets : List Nat} : array.command? i = some (.branch targets) → targets ≠ []
  distinct {targets : List Nat} {dest : Nat} : array.command? i = some (.branch targets) →
    array.next? i = some dest → targets ≠ [dest]

/-- A cell that was collapsed, without simplifying a branch, is settled. -/
theorem Collapse.settledAt {next : Option Nat} (h : a.Collapse i next b false) (hi : i < a.size)
    (hnext : Option.Rel a.Lands (a.next? i) next) : b.SettledAt i := by
  have hlands {dest last : Nat} (hlast : a.Lands dest last) : b.Lands last last :=
    h.lands hi hlast.self
  have hread := h.next?_self hi
  have hfall {dest : Nat} (hn : b.next? i = some dest) : b.Lands dest dest := by
    rw [hread] at hn
    generalize a.next? i = before at hnext
    subst hn
    cases hnext with
    | some hlast => exact hlands hlast
  cases h with
  | keep hjump hbranch =>
    have hcommand : (a.setNext i next).command? i = a.command? i := command?_setNext next
    constructor
    case next => exact hfall
    case jump => exact fun hc => absurd (hcommand.symm.trans hc) (hjump _)
    all_goals exact fun hc => absurd (hcommand.symm.trans hc) (hbranch _)
  | @retarget target last hjump hlast =>
    have hcommand : ((a.setNext i next).setCommand i (.jump last)).command? i =
        some (.jump last) := command?_set _ hi
    constructor
    case next => exact hfall
    case jump =>
      intro target' hc
      obtain rfl : last = target' := by simpa using hcommand.symm.trans hc
      exact hlands hlast
    all_goals
      intro targets
      simp [hcommand]
  | @choose targets dests hbranch hdests hsorted hne hmany =>
    have hcommand : ((a.setNext i next).setCommand i (.branch dests)).command? i =
        some (.branch dests) := command?_set _ hi
    have hsame {targets : List Nat} (hc : ((a.setNext i next).setCommand i
        (.branch dests)).command? i = some (.branch targets)) : dests = targets := by
      simpa using hcommand.symm.trans hc
    constructor
    case next => exact hfall
    case jump =>
      intro target hc
      simp [hcommand] at hc
    case target =>
      intro targets hc dest hdest
      obtain rfl := hsame hc
      obtain ⟨hne, target, -, hlast⟩ := hdests dest hdest
      exact ⟨hne, hlands hlast⟩
    case sorted => exact fun hc => hsame hc ▸ hsorted
    case nonempty => exact fun hc => hsame hc ▸ hne
    case distinct =>
      intro targets dest hc hn
      exact hsame hc ▸ hmany dest (hread.symm.trans hn)

namespace SettledAt

/-- A cell that is left as it is stays settled if no landing changes. -/
theorem transfer (h : a.SettledAt i) (hcommand : b.command? i = a.command? i)
    (hnext : b.next? i = a.next? i)
    (hlands : ∀ {dest last}, a.Lands dest last → b.Lands dest last) : b.SettledAt i :=
  ⟨fun hn => hlands (h.next (hnext ▸ hn)), fun hc => hlands (h.jump (hcommand ▸ hc)),
    fun hc target ht => ⟨(h.target (hcommand ▸ hc) target ht).1,
      hlands (h.target (hcommand ▸ hc) target ht).2⟩,
    fun hc => h.sorted (hcommand ▸ hc), fun hc => h.nonempty (hcommand ▸ hc),
    fun hc hn => h.distinct (hcommand ▸ hc) (hnext ▸ hn)⟩

/-- Collapsing a settled cell leaves it as it is. -/
theorem collapseCell (h : a.SettledAt i) (hcommands : a.commandCount ≤ commands) :
    collapseCell commands a i = .ok (a, false) := by
  have hfinal {dest : Nat} (hdest : a.Lands dest dest) :
      a.finalDestination commands dest = .ok dest :=
    (finalDestination_eq_ok_iff hcommands).mpr hdest
  have hnext : a.finalNext commands i = .ok (a.next? i) := by
    rw [finalNext]
    cases hn : a.next? i with
    | none => rfl
    | some dest =>
      simp only [hfinal (h.next hn)]
      rfl
  rw [CellArray.collapseCell, hnext]
  simp only [bind, Except.bind, setNext_self]
  split
  case h_1 target hc => simp only [hfinal (h.jump hc), setCommand_self hc]
  case h_2 targets hc =>
    have hfound : targets.mapM (a.finalDestination commands) = .ok targets := by
      simpa using mapM_eq_ok (g := id) targets fun target ht => hfinal (h.target hc target ht).2
    have hkept : targets.filter (· != i + 1) = targets :=
      List.filter_eq_self.mpr fun target ht => bne_iff_ne.mpr (h.target hc target ht).1
    rw [collapseBranch, hfound]
    simp only [bind, Except.bind, hkept, Destinations.ofList_of_pairwise (h.sorted hc),
      setCommand_self hc, List.isEmpty_iff, h.nonempty hc]
    cases hn : a.next? i with
    | none => rfl
    | some dest => simp [h.nonempty hc, h.distinct hc hn]
  case h_3 => rfl

end SettledAt

/-! ## One pass -/

/-- What a pass leaves: commands stay where they are, none becomes a branch, a pass that has
simplified a branch leaves fewer of them, and one that has not leaves nothing to collapse. -/
structure Passes (bound : Nat) (a b : CellArray) (changed : Bool) : Prop where
  size : b.size = a.size
  isSome : ∀ k, (b.command? k).isSome = (a.command? k).isSome
  isBranch : ∀ k, b.IsBranch k → a.IsBranch k
  fewer : changed = true → ∃ k, a.IsBranch k ∧ ¬b.IsBranch k
  settled : changed = false → ∀ k < bound, b.SettledAt k

namespace Passes

variable {bound : Nat} {changed : Bool}

theorem commandCount (h : Passes bound a b changed) : b.commandCount = a.commandCount :=
  commandCount_congr h.size h.isSome

theorem start (a : CellArray) : Passes 0 a a false :=
  ⟨rfl, fun _ => rfl, fun _ => id, fun h => (by cases h), fun _ k hk => absurd hk (by omega)⟩

/-- Each cell carries the pass on. -/
theorem step {c : CellArray} (h : Passes bound a b changed) (hcommands : a.commandCount ≤ commands)
    (hbound : bound < a.size)
    (hcell : CellArray.collapseCell commands b bound = .ok (c, simplified)) :
    Passes (bound + 1) a c (changed || simplified) := by
  have hlt : bound < b.size := h.size ▸ hbound
  obtain ⟨next, hnext, hc⟩ :=
    collapse_of_collapseCell (h.commandCount ▸ hcommands) hlt hcell
  have hagree := hc.agreeBut hlt
  refine ⟨hagree.size.trans h.size, fun k => (hc.isSome hlt k).trans (h.isSome k),
    fun k hk => h.isBranch k (hc.isBranch hlt hk), fun hor => ?_, fun hor k hk => ?_⟩
  · cases simplified with
    | true =>
      obtain ⟨hbranch, hnot⟩ := hc.not_isBranch hlt
      exact ⟨bound, h.isBranch bound hbranch, hnot⟩
    | false =>
      obtain ⟨k, hbranch, hnot⟩ := h.fewer (by simpa using hor)
      exact ⟨k, hbranch, fun hk => hnot (hc.isBranch hlt hk)⟩
  · obtain ⟨rfl, rfl⟩ := Bool.or_eq_false_iff.mp hor
    by_cases hkb : k = bound
    · exact hkb ▸ hc.settledAt hlt hnext
    · exact (h.settled rfl k (by omega)).transfer (hagree.command? k hkb) (hagree.next? k hkb)
        (hc.lands hlt)

end Passes

/-- A pass over all cells does to each of them what collapsing does. -/
theorem passes_of_collapsePass {changed : Bool} (hcommands : a.commandCount ≤ commands)
    (h : collapsePass commands a = .ok (b, changed)) : Passes a.size a b changed := by
  refine foldlM_range_keeps (P := fun k s => Passes k a s.1 s.2) ?_ (.start a) h
  rintro k hk ⟨mid, changed⟩ ⟨mid', changed'⟩ hmid hround
  obtain ⟨⟨c, simplified⟩, hcell, hs⟩ := exists_of_bind_eq_ok hround
  obtain ⟨rfl, rfl⟩ := Prod.mk.inj (Except.ok.inj hs)
  exact hmid.step hcommands hk hcell

/-- A pass over settled cells leaves them as they are. -/
theorem collapsePass_of_settled (hcommands : a.commandCount ≤ commands)
    (h : ∀ k < a.size, a.SettledAt k) : collapsePass commands a = .ok (a, false) := by
  have hloop : ∃ s, collapsePass commands a = .ok s ∧ s = (a, false) := by
    refine foldlM_range_ok (P := fun _ s => s = (a, false)) rfl a.size ?_
    rintro k hk _ rfl
    refine ⟨(a, false), ?_, rfl⟩
    simp only [(h k hk).collapseCell hcommands]
    rfl
  obtain ⟨_, hrun, rfl⟩ := hloop
  exact hrun

/-! ## Repeated passes -/

/-- What collapsing one cell keeps, all passes together keep. -/
theorem collapseCells_keeps {P : CellArray → Prop}
    (hstep : ∀ {a b : CellArray} {i : Nat} {next : Option Nat} {simplified : Bool}, i < a.size →
      Option.Rel a.Lands (a.next? i) next → a.Collapse i next b simplified → P a → P b)
    (hcommands : a.commandCount ≤ commands) {fuel : Nat}
    (h : collapseCells commands fuel a = .ok b) (ha : P a) : P b := by
  induction fuel generalizing a with
  | zero =>
    obtain rfl : a = b := Except.ok.inj h
    exact ha
  | succ fuel ih =>
    obtain ⟨⟨mid, changed⟩, hpass, h⟩ := exists_of_bind_eq_ok h
    have hmid : P mid := by
      refine (foldlM_range_keeps (P := fun k s => Passes k a s.1 s.2 ∧ P s.1) ?_
        ⟨.start a, ha⟩ hpass).2
      rintro k hk ⟨mid, changed⟩ ⟨mid', changed'⟩ ⟨hpasses, hmid⟩ hround
      obtain ⟨⟨c, simplified⟩, hcell, hs⟩ := exists_of_bind_eq_ok hround
      obtain ⟨rfl, rfl⟩ := Prod.mk.inj (Except.ok.inj hs)
      have hlt : k < mid.size := hpasses.size ▸ hk
      obtain ⟨next, hnext, hc⟩ :=
        collapse_of_collapseCell (hpasses.commandCount ▸ hcommands) hlt hcell
      exact ⟨hpasses.step hcommands hk hcell, hstep hlt hnext hc hmid⟩
    cases changed with
    | true =>
      have hcount := (passes_of_collapsePass hcommands hpass).commandCount
      exact ih (hcount ▸ hcommands) h hmid
    | false =>
      obtain rfl : mid = b := Except.ok.inj h
      exact hmid

/-- The loop over passes: it ends at a pass that fails or that simplifies no branch. -/
inductive Settles (commands : Nat) : CellArray → Except Error CellArray → Prop where
  | fails {a : CellArray} {e : Error} : collapsePass commands a = .error e →
      Settles commands a (.error e)
  | done {a b : CellArray} : collapsePass commands a = .ok (b, false) → Settles commands a (.ok b)
  | again {a b : CellArray} {result : Except Error CellArray} :
      collapsePass commands a = .ok (b, true) → Settles commands b result →
      Settles commands a result

open Classical in
/-- The cells that hold a branch. -/
noncomputable def branchCells (array : CellArray) : Finset Nat :=
  (Finset.range array.size).filter array.IsBranch

open Classical in
/-- The cells that are counted are those with a branch. -/
theorem mem_branchCells {k : Nat} : k ∈ array.branchCells ↔ array.IsBranch k := by
  rw [branchCells, Finset.mem_filter, Finset.mem_range, and_iff_right_iff_imp]
  rintro ⟨targets, hc⟩
  exact lt_size_of_command? hc

open Classical in
/-- There are no more branches than cells. -/
theorem card_branchCells_le (array : CellArray) : array.branchCells.card ≤ array.size := by
  rw [branchCells]
  exact (Finset.card_filter_le _ _).trans (Finset.card_range array.size).le

/-- A pass that simplifies a branch leaves fewer of them. -/
theorem Passes.card_lt {bound : Nat} (h : Passes bound a b true) :
    b.branchCells.card < a.branchCells.card := by
  obtain ⟨k, hk, hnot⟩ := h.fewer rfl
  refine Finset.card_lt_card (Finset.ssubset_iff_of_subset ?_ |>.mpr ⟨k, ?_, ?_⟩)
  · exact fun j hj => mem_branchCells.mpr (h.isBranch j (mem_branchCells.mp hj))
  · exact mem_branchCells.mpr hk
  · rwa [mem_branchCells]

/-- The loop over passes ends before more passes are made than there are branches, and one. -/
theorem settles_collapseCells (hcommands : a.commandCount ≤ commands) {fuel : Nat}
    (hfuel : a.branchCells.card < fuel) : Settles commands a (collapseCells commands fuel a) := by
  induction fuel generalizing a with
  | zero => omega
  | succ fuel ih =>
    rw [collapseCells]
    cases hpass : collapsePass commands a with
    | error e => exact .fails hpass
    | ok result =>
      obtain ⟨b, changed⟩ := result
      cases changed with
      | false => exact .done hpass
      | true =>
        have hpasses := passes_of_collapsePass hcommands hpass
        have hlt := hpasses.card_lt
        exact .again hpass (ih (hpasses.commandCount ▸ hcommands) (by omega))

/-- What the loop ends with is settled. -/
theorem Settles.settledAt {result : Except Error CellArray} (h : Settles commands a result)
    (hresult : result = .ok b) (hcommands : a.commandCount ≤ commands) :
    b.commandCount = a.commandCount ∧ ∀ k < b.size, b.SettledAt k := by
  induction h with
  | fails => cases hresult
  | done hpass =>
    obtain rfl := Except.ok.inj hresult
    have hpasses := passes_of_collapsePass hcommands hpass
    exact ⟨hpasses.commandCount, hpasses.size ▸ hpasses.settled rfl⟩
  | again hpass _ ih =>
    have hpasses := passes_of_collapsePass hcommands hpass
    rw [← hpasses.commandCount] at hcommands ⊢
    exact ih hresult hcommands

/-- Nothing is collapsed where all destinations are settled and the entrance lands at itself. -/
theorem collapseJumps_of_settled (h : ∀ k < array.size, array.SettledAt k) {entrance : Nat}
    (hentrance : array.Lands entrance entrance) :
    CellArray.collapseJumps { array with entrance := entrance } =
      .ok { array with entrance := entrance } := by
  generalize hresult : ({ array with entrance := entrance } : CellArray) = result
  have hcommand (k : Nat) : result.command? k = array.command? k := by rw [← hresult]; rfl
  have hlands {dest last : Nat} (hlast : array.Lands dest last) : result.Lands dest last :=
    hlast.congr (fun k => by rw [hcommand]) fun k target => by rw [hcommand]
  have hsettled : ∀ k < result.size, result.SettledAt k := by
    intro k hk
    refine (h k ?_).transfer (hcommand k) ?_ hlands
    · rwa [← hresult] at hk
    · rw [← hresult]
      rfl
  have hpass := collapsePass_of_settled le_rfl hsettled
  have hstart : result.finalDestination result.commandCount result.entrance =
      .ok result.entrance := by
    rw [finalDestination_eq_ok_iff le_rfl]
    rw [← hresult] at hlands ⊢
    exact hlands hentrance
  rw [collapseJumps, collapseCells, hpass]
  simp only [bind, Except.bind, Bool.false_eq_true, if_false, hstart]

/-! ## The number of commands is bound enough -/

/-- A higher bound on the number of jumps does not change where they lead. -/
theorem finalDestination_bound (hcommands : array.commandCount ≤ commands) :
    array.finalDestination commands = array.finalDestination array.commandCount := by
  funext dest
  exact (follows_finalDestination hcommands dest).unique (follows_finalDestination le_rfl dest)

theorem collapseCell_bound (hcommands : a.commandCount ≤ commands) (i : Nat) :
    collapseCell commands a i = collapseCell a.commandCount a i := by
  rw [collapseCell, collapseCell, finalNext, finalNext, finalDestination_bound hcommands]
  refine bind_congr fun next => ?_
  have hmid : (a.setNext i next).finalDestination commands =
      (a.setNext i next).finalDestination a.commandCount := by
    rw [finalDestination_bound (by rwa [commandCount_setNext]), commandCount_setNext]
  simp only [collapseBranch, hmid]

theorem collapsePass_bound (hcommands : a.commandCount ≤ commands) :
    collapsePass commands a = collapsePass a.commandCount a := by
  refine foldlM_congr_of_keeps
    (P := fun s => s.1.commandCount = a.commandCount ∧ s.1.size = a.size) ?_ ?_ ⟨rfl, rfl⟩
  · rintro k hk ⟨mid, changed⟩ ⟨mid', changed'⟩ ⟨hcount, hsize⟩ hround
    obtain ⟨⟨c, simplified⟩, hcell, hs⟩ := exists_of_bind_eq_ok hround
    obtain ⟨rfl, rfl⟩ := Prod.mk.inj (Except.ok.inj hs)
    have hlt : k < mid.size := hsize.symm ▸ List.mem_range.mp hk
    obtain ⟨next, -, hc⟩ := collapse_of_collapseCell (hcount ▸ hcommands) hlt hcell
    exact ⟨(hc.commandCount hlt).trans hcount, (hc.agreeBut hlt).size.trans hsize⟩
  · rintro k - ⟨mid, changed⟩ ⟨hcount, -⟩
    simp only [collapseCell_bound (hcount ▸ hcommands), hcount]

/-- A higher bound on the jumps that are followed makes no difference. -/
theorem collapseCells_bound (hcommands : a.commandCount ≤ commands) (fuel : Nat) :
    collapseCells commands fuel a = collapseCells a.commandCount fuel a := by
  induction fuel generalizing a with
  | zero => rfl
  | succ fuel ih =>
    rw [collapseCells, collapseCells, collapsePass_bound hcommands]
    cases hpass : collapsePass a.commandCount a with
    | error e => rfl
    | ok result =>
      obtain ⟨b, changed⟩ := result
      have hcount := (passes_of_collapsePass le_rfl hpass).commandCount
      have hrest := ih (hcount ▸ hcommands)
      rw [hcount] at hrest
      simp only [bind, Except.bind, hrest]

/-- Collapsing jumps ends, and does nothing when it is done again. The loop that follows jumps from
a destination ends, and so does the loop over passes, however many jumps it may follow beyond the
number of commands; collapsing has their results. And if it succeeds, it succeeds on what it leaves,
and leaves it as it is. -/
theorem collapseJumps_idempotent (array : CellArray) :
    (∀ commands, array.commandCount ≤ commands → ∀ dest,
        array.Follows [] dest (array.finalDestination commands dest)) ∧
      (∀ commands, array.commandCount ≤ commands →
        Settles commands array (collapseCells array.commandCount (array.size + 1) array)) ∧
      ∀ collapsed, array.collapseJumps = .ok collapsed →
        collapsed.collapseJumps = .ok collapsed := by
  have hfuel : array.branchCells.card < array.size + 1 :=
    Nat.lt_succ_of_le array.card_branchCells_le
  refine ⟨fun commands hcommands => follows_finalDestination hcommands,
    fun commands hcommands => ?_, fun collapsed h => ?_⟩
  · rw [← collapseCells_bound hcommands]
    exact settles_collapseCells hcommands hfuel
  · obtain ⟨cells, hcells, h⟩ := exists_of_bind_eq_ok h
    obtain ⟨entrance, hentrance, h⟩ := exists_of_bind_eq_ok h
    obtain rfl := Except.ok.inj h
    have hsettles := settles_collapseCells le_rfl hfuel
    obtain ⟨hcount, hsettled⟩ := hsettles.settledAt hcells le_rfl
    exact collapseJumps_of_settled hsettled
      ((finalDestination_eq_ok_iff hcount.le).mp hentrance).self

/-- A call that falls through to a jump into a circle of two jumps, and branches that can and that
cannot be simplified. -/
def tailedArray : CellArray where
  method := ⟨"t/A", "m:()V"⟩
  cells := #[⟨some 5, some (.call ⟨none, "a:()V"⟩)⟩, ⟨some 2, some (.jump 2)⟩,
    ⟨some 3, some (.jump 1)⟩, ⟨some 4, some (.branch [4])⟩, ⟨some 5, some .ret⟩,
    ⟨some 6, some (.jump 1)⟩, ⟨some 7, some (.branch [3, 0])⟩, ⟨none, none⟩,
    ⟨some 4, some (.branch [3])⟩]
  entrance := 0

/-- The cells of `tailedArray` after jumps are collapsed. -/
def tailedCollapsed : CellArray where
  method := ⟨"t/A", "m:()V"⟩
  cells := #[⟨some 5, some (.call ⟨none, "a:()V"⟩)⟩, ⟨some 2, some (.jump 2)⟩,
    ⟨some 4, some (.jump 2)⟩, ⟨some 4, some (.jump 4)⟩, ⟨some 5, some .ret⟩,
    ⟨some 6, some (.jump 2)⟩, ⟨some 4, some (.branch [0, 4])⟩, ⟨none, none⟩,
    ⟨some 4, some (.jump 4)⟩]
  entrance := 0

/-- The jump at 5 leads into a circle of lower cells, so it is where a way from it lands, though the
circle has a highest cell of its own. Two branches are simplified, and then nothing is left to
do. -/
theorem collapseJumps_idempotent_tailed :
    tailedArray.Follows [] 5 (.ok 5) ∧
      Settles tailedArray.commandCount tailedArray
        (collapseCells tailedArray.commandCount (tailedArray.size + 1) tailedArray) ∧
      tailedArray.collapseJumps = .ok tailedCollapsed ∧ tailedCollapsed ≠ tailedArray ∧
      tailedCollapsed.collapseJumps = .ok tailedCollapsed := by
  have hcollapse : tailedArray.collapseJumps = .ok tailedCollapsed := by decide +kernel
  have hfive : tailedArray.finalDestination tailedArray.commandCount 5 = .ok 5 := by
    decide +kernel
  obtain ⟨hfollows, hsettles, hagain⟩ := collapseJumps_idempotent tailedArray
  exact ⟨hfive ▸ hfollows _ le_rfl 5, hsettles _ le_rfl, hcollapse, by decide +kernel,
    hagain _ hcollapse⟩

end CellArray

end CallNgrams
