import Mathlib.Data.Nat.SuccPred
import CallNgrams.Proofs.Flow.Decode
import CallNgrams.Proofs.Flow.Fixpoint
import CallNgrams.Proofs.Flow.Repetition

/-!
# Jumps that lead in a circle

After jumps are collapsed, a destination that is still a jump stands for a circle of jumps. Every
circle is left with one cell, the highest, which jumps to itself. A way into the circle may start
above it, though: the landing is the highest index on the whole way, so the destination is then a
jump outside the circle, from which jumps descend to the cell that jumps to itself.
-/

namespace CallNgrams.CellArray

open Relation

variable {a b array collapsed : CellArray} {p q i dest last top loop : Nat}

/-- The cell at an index jumps to itself. -/
def Loops (array : CellArray) (i : Nat) : Prop :=
  array.command? i = some (.jump i)

/-- The command at an index is no jump, or jumps to its own index. -/
def Rests (array : CellArray) (i : Nat) : Prop :=
  ∃ command, array.command? i = some command ∧ (command.IsJump → array.Loops i)

/-- A cell jumps to a lower one. -/
def Descends (array : CellArray) (p q : Nat) : Prop :=
  array.command? p = some (.jump q) ∧ q < p

/-! ## Ways of nothing but jumps -/

/-- From a destination on there are only jumps, and `top` is the highest of them. -/
def Spins (array : CellArray) (dest top : Nat) : Prop :=
  ∃ found, array.FirstCommand dest found ∧
    (∀ q, ReflTransGen array.Leaps found q → ∃ r, array.Leaps q r) ∧
    IsGreatest { q | ReflTransGen array.Leaps found q } top

/-- A way of nothing but jumps lands at a jump. -/
theorem spins_iff : array.Spins dest top ↔
    array.Lands dest top ∧ ∃ target, array.command? top = some (.jump target) := by
  constructor
  · rintro ⟨found, hfound, hjumps, hway, hle⟩
    obtain ⟨r, target, hjump, -⟩ := hjumps top hway
    exact ⟨⟨found, hfound, hway, .inr fun q hq => ⟨hle hq, hjumps q hq⟩⟩, target, hjump⟩
  · rintro ⟨⟨found, hfound, hway, hstops⟩, target, hjump⟩
    have hall := hstops.resolve_left fun hstop => hstop target hjump
    exact ⟨found, hfound, fun q hq => (hall q hq).2, hway, fun q hq => (hall q hq).1⟩

namespace Spins

theorem lands (h : array.Spins dest top) : array.Lands dest top :=
  (spins_iff.mp h).1

theorem self (h : array.Spins dest top) : array.Spins top top := by
  obtain ⟨hlands, hjump⟩ := spins_iff.mp h
  exact spins_iff.mpr ⟨hlands.self, hjump⟩

/-- A way of nothing but jumps stays as it is if the jumps stay, whatever else becomes a jump. -/
theorem congr (h : a.Spins dest top) (hsome : ∀ k, (b.command? k).isSome = (a.command? k).isSome)
    (hjumps : ∀ k target, a.command? k = some (.jump target) →
      b.command? k = some (.jump target)) : b.Spins dest top := by
  obtain ⟨found, hfound, hall, hway, hle⟩ := h
  have hleaps {p q : Nat} : a.Leaps p q → b.Leaps p q := by
    rintro ⟨target, hjump, hfirst⟩
    exact ⟨target, hjumps p target hjump, hfirst.congr hsome⟩
  have hback {q : Nat} (hq : ReflTransGen b.Leaps found q) : ReflTransGen a.Leaps found q := by
    induction hq with
    | refl => exact .refl
    | tail _ hleap ih =>
      obtain ⟨r, hr⟩ := hall _ ih
      rw [leaps_rightUnique hleap (hleaps hr)]
      exact ih.tail hr
  refine ⟨found, hfound.congr hsome, fun q hq => ?_, ?_, fun q hq => hle (hback hq)⟩
  · obtain ⟨r, hr⟩ := hall q (hback hq)
    exact ⟨r, hleaps hr⟩
  · exact ReflTransGen.mono (fun _ _ => hleaps) _ _ hway

end Spins

/-- Collapsing a cell changes nothing about where a way of nothing but jumps lands. -/
theorem Collapse.spins {next : Option Nat} {simplified : Bool} (h : a.Collapse i next b simplified)
    (hi : i < a.size) (hspins : a.Spins dest top) : b.Spins dest top := by
  have hagree := h.agreeBut hi
  have hsome := h.isSome hi
  -- unless the cell is a jump, every jump lies elsewhere and stays
  have hother (hno : ∀ target, a.command? i ≠ some (.jump target)) : b.Spins dest top := by
    refine hspins.congr hsome fun k target hjump => ?_
    have hk : k ≠ i := by
      rintro rfl
      exact hno target hjump
    rwa [hagree.command? k hk]
  cases h with
  | keep hjump => exact hother hjump
  | choose hbranch | simplify hbranch => exact hother fun target => by simp [hbranch]
  | @retarget target last hjump hlast =>
    obtain ⟨hlands, target', hjump'⟩ := spins_iff.mp hspins
    have hset : ((a.setNext i next).setCommand i (.jump last)).command? i = some (.jump last) :=
      command?_set _ hi
    refine spins_iff.mpr ⟨.retarget hjump hlast hagree hset hlands, ?_⟩
    by_cases htop : top = i
    · exact ⟨last, htop ▸ hset⟩
    · exact ⟨target', by rwa [hagree.command? top htop]⟩

/-! ## Places that name a destination -/

/-- A place that names one destination. -/
inductive Reference where
  /-- Where the method is entered. -/
  | entrance
  /-- The fallthrough of a cell. -/
  | next (index : Nat)
  /-- The target of a jump. -/
  | jump (index : Nat)

/-- The destination that is named at a place. -/
def destination? (array : CellArray) : Reference → Option Nat
  | .entrance => some array.entrance
  | .next index => array.next? index
  | .jump index =>
    match array.command? index with
    | some (.jump target) => some target
    | _ => none

theorem destination?_jump :
    array.destination? (.jump i) = some dest ↔ array.command? i = some (.jump dest) := by
  rw [destination?]
  split <;> simp_all

/-- Collapsing a cell leaves a destination as it is, or replaces it by its landing. -/
theorem Collapse.exists_destination? {next : Option Nat} {simplified : Bool}
    {reference : Reference} (h : a.Collapse i next b simplified) (hi : i < a.size)
    (hnext : Option.Rel a.Lands (a.next? i) next) (hdest : a.destination? reference = some dest) :
    ∃ dest', b.destination? reference = some dest' ∧ (dest' = dest ∨ a.Lands dest dest') := by
  have hagree := h.agreeBut hi
  cases reference with
  | entrance =>
    refine ⟨dest, ?_, .inl rfl⟩
    rw [destination?, hagree.entrance]
    exact hdest
  | next k =>
    by_cases hk : k = i
    · subst hk
      change a.next? k = some dest at hdest
      rw [hdest] at hnext
      obtain ⟨last, hlast, hread⟩ : ∃ last, a.Lands dest last ∧ next = some last := by
        cases hnext with
        | some hlast => exact ⟨_, hlast, rfl⟩
      exact ⟨last, (h.next?_self hi).trans hread, .inr hlast⟩
    · exact ⟨dest, (hagree.next? k hk).trans hdest, .inl rfl⟩
  | jump k =>
    rw [destination?_jump] at hdest
    simp only [destination?_jump]
    by_cases hk : k = i
    · subst hk
      cases h with
      | keep hjump => exact absurd hdest (hjump dest)
      | choose hbranch | simplify hbranch => simp [hbranch] at hdest
      | @retarget target last hjump hlast =>
        obtain rfl : target = dest := by simpa using hjump.symm.trans hdest
        exact ⟨last, command?_set _ hi, .inr hlast⟩
    · exact ⟨dest, (hagree.command? k hk).trans hdest, .inl rfl⟩

/-- A destination with only jumps ahead of it keeps the highest of them. -/
theorem exists_spins_of_collapseCells {reference : Reference} {commands fuel : Nat}
    (hcommands : a.commandCount ≤ commands) (h : collapseCells commands fuel a = .ok b)
    (hdest : a.destination? reference = some dest) (hspins : a.Spins dest top) :
    ∃ dest', b.destination? reference = some dest' ∧ b.Spins dest' top := by
  refine collapseCells_keeps (P := fun array =>
    ∃ dest, array.destination? reference = some dest ∧ array.Spins dest top) ?_ hcommands h
    ⟨dest, hdest, hspins⟩
  rintro a b i next simplified hi hnext hc ⟨dest, hdest, hspins⟩
  obtain ⟨dest', hdest', rfl | hlands⟩ := hc.exists_destination? hi hnext hdest
  · exact ⟨dest', hdest', hc.spins hi hspins⟩
  · obtain rfl := hspins.lands.unique hlands
    exact ⟨top, hdest', hc.spins hi hspins.self⟩

/-! ## Collapsed arrays -/

/-- Collapsing jumps leaves cells with nothing left to collapse, and enters them where their
entrance lands. -/
theorem settled_of_collapseJumps (h : array.collapseJumps = .ok collapsed) :
    ∃ cells, collapseCells array.commandCount (array.size + 1) array = .ok cells ∧
      (∀ k < cells.size, cells.SettledAt k) ∧ cells.Lands cells.entrance collapsed.entrance ∧
      collapsed = { cells with entrance := collapsed.entrance } := by
  obtain ⟨cells, hcells, h⟩ := exists_of_bind_eq_ok h
  obtain ⟨entrance, hentrance, h⟩ := exists_of_bind_eq_ok h
  obtain rfl := Except.ok.inj h
  have hsettles := settles_collapseCells (a := array) le_rfl
    (Nat.lt_succ_of_le array.card_branchCells_le)
  obtain ⟨hcount, hsettled⟩ := hsettles.settledAt hcells le_rfl
  exact ⟨cells, hcells, hsettled, (finalDestination_eq_ok_iff hcount.le).mp hentrance, rfl⟩

/-- After jumps are collapsed, everything that something leads to lands at itself. -/
theorem lands_of_refers (h : array.collapseJumps = .ok collapsed) (hdest : collapsed.Refers dest) :
    collapsed.Lands dest dest := by
  obtain ⟨cells, -, hsettled, hentrance, hcollapsed⟩ := settled_of_collapseJumps h
  have hsame (k : Nat) : collapsed.command? k = cells.command? k := by rw [hcollapsed]; rfl
  have hlands {dest : Nat} (hdest : cells.Lands dest dest) : collapsed.Lands dest dest :=
    hdest.congr (fun k => by rw [hsame]) fun k target => by rw [hsame]
  rcases refers_iff.mp hdest with rfl | ⟨i, hnext⟩ | ⟨i, command, hcommand, hmem⟩
  · exact hlands hentrance.self
  · rw [hcollapsed] at hnext
    exact hlands ((hsettled i (lt_size_of_next? hnext)).next hnext)
  · rw [hsame] at hcommand
    have hcell := hsettled i (lt_size_of_command? hcommand)
    cases command with
    | jump target =>
      obtain rfl := List.mem_singleton.mp hmem
      exact hlands (hcell.jump hcommand)
    | branch targets => exact hlands (hcell.target hcommand dest hmem).2
    | ret | raise | call => cases hmem

theorem refers_of_jump {target : Nat} (h : array.command? i = some (.jump target)) :
    array.Refers target :=
  refers_iff.mpr (.inr (.inr ⟨i, _, h, List.mem_singleton.mpr rfl⟩))

/-- A jump of a collapsed array leads to its target itself. -/
theorem leaps_iff_of_collapseJumps (h : array.collapseJumps = .ok collapsed) :
    collapsed.Leaps p q ↔ collapsed.command? p = some (.jump q) := by
  constructor
  · rintro ⟨target, hjump, hfirst⟩
    have hself := (lands_of_refers h (refers_of_jump hjump)).isSome
    rwa [hfirst.unique (.self hself)]
  · intro hjump
    exact ⟨q, hjump, .self (lands_of_refers h (refers_of_jump hjump)).isSome⟩

/-- From a jump that lands at itself there are only jumps ahead, and none of them lies above it. -/
theorem Lands.le_of_way (h : array.Lands dest dest) (hleap : array.Leaps dest p)
    (hway : ReflTransGen array.Leaps dest q) : q ≤ dest ∧ ∃ r, array.Leaps q r := by
  obtain ⟨found, -, hfrom⟩ := h
  obtain ⟨target, hjump, -⟩ := hleap
  exact (hfrom.self.stops.resolve_left fun hstop => hstop target hjump) q hway

/-- From what something leads to jumps descend to a cell that jumps to itself, unless it is one or
holds no jump. -/
theorem rests_or_descends (h : array.collapseJumps = .ok collapsed)
    (hdest : collapsed.Refers dest) :
    collapsed.Rests dest ∨
      ∃ loop, TransGen collapsed.Descends dest loop ∧ collapsed.Loops loop := by
  induction dest using Nat.strongRecOn with
  | ind dest ih =>
    have hlands := lands_of_refers h hdest
    obtain ⟨command, hcommand⟩ := Option.isSome_iff_exists.mp hlands.isSome
    cases command with
    | ret | raise | branch | call => exact .inl ⟨_, hcommand, fun hjump => hjump.elim⟩
    | jump target =>
      have hleap := (leaps_iff_of_collapseJumps h).mpr hcommand
      obtain ⟨hle, r, hr⟩ := hlands.le_of_way hleap (.single hleap)
      rcases Nat.eq_or_lt_of_le hle with rfl | hlt
      · exact .inl ⟨_, hcommand, fun _ => hcommand⟩
      · right
        have hstep : collapsed.Descends dest target := ⟨hcommand, hlt⟩
        rcases ih target hlt (refers_of_jump hcommand) with ⟨command, htarget, hloops⟩ | hdown
        · -- the target is a jump too, so it can only rest by jumping to itself
          rw [leaps_iff_of_collapseJumps h, htarget] at hr
          obtain rfl := Option.some.inj hr
          exact ⟨target, .single hstep, hloops trivial⟩
        · obtain ⟨loop, hdown, hloop⟩ := hdown
          exact ⟨loop, .head hstep hdown, hloop⟩

/-- A cell that rests is the start of no descent. -/
theorem Rests.not_descends (h : array.Rests dest) : ¬TransGen array.Descends dest q := by
  intro hdown
  obtain ⟨r, ⟨hjump, hlt⟩, -⟩ := TransGen.head'_iff.mp hdown
  obtain ⟨command, hcommand, hloops⟩ := h
  obtain rfl : command = .jump r := by simpa using hcommand.symm.trans hjump
  have hsame : r = dest := by simpa using hjump.symm.trans (hloops trivial)
  omega

/-- A circle of jumps is left with one cell. -/
theorem loops_of_circle (h : array.collapseJumps = .ok collapsed)
    (hcircle : TransGen collapsed.Leaps p p) : collapsed.Loops p := by
  have hlands {i j : Nat} (hleap : collapsed.Leaps i j) : collapsed.Lands j j :=
    lands_of_refers h (refers_of_jump ((leaps_iff_of_collapseJumps h).mp hleap))
  obtain ⟨q, hpq, hqp⟩ := TransGen.head'_iff.mp hcircle
  obtain ⟨r, -, hrp⟩ := TransGen.tail'_iff.mp hcircle
  have hqp' : q ≤ p := ((hlands hrp).le_of_way hpq (.single hpq)).1
  obtain ⟨-, s, hqs⟩ := (hlands hrp).le_of_way hpq (.single hpq)
  have hpq' : p ≤ q := ((hlands hpq).le_of_way hqs hqp).1
  obtain rfl : q = p := Nat.le_antisymm hqp' hpq'
  exact (leaps_iff_of_collapseJumps h).mp hpq

/-! ## How a circle is entered -/

/-- A destination with only jumps ahead of it is replaced by the highest of them. -/
theorem destination?_of_spins {reference : Reference} (h : array.collapseJumps = .ok collapsed)
    (hdest : array.destination? reference = some dest) (hspins : array.Spins dest top) :
    collapsed.destination? reference = some top := by
  obtain ⟨cells, hcells, hsettled, hentrance, hcollapsed⟩ := settled_of_collapseJumps h
  obtain ⟨dest', hdest', hspins'⟩ := exists_spins_of_collapseCells le_rfl hcells hdest hspins
  rw [hcollapsed]
  cases reference with
  | entrance =>
    obtain rfl : cells.entrance = dest' := Option.some.inj hdest'
    exact congrArg some (hentrance.unique hspins'.lands)
  | next k =>
    have hself := (hsettled k (lt_size_of_next? hdest')).next hdest'
    exact hdest'.trans (congrArg some (hself.unique hspins'.lands))
  | jump k =>
    have hjump := destination?_jump.mp hdest'
    have hself := (hsettled k (lt_size_of_command? hjump)).jump hjump
    exact hdest'.trans (congrArg some (hself.unique hspins'.lands))

/-- The highest of the jumps ahead rests exactly if it lies on the circle. -/
theorem Spins.rests_iff (hspins : array.Spins dest top)
    (h : array.collapseJumps = .ok collapsed) :
    collapsed.Rests top ↔ TransGen array.Leaps top top := by
  obtain ⟨found, -, hjumps, hway, hle⟩ := hspins
  obtain ⟨next, hleap⟩ := hjumps top hway
  have hahead {q : Nat} (hq : ReflTransGen array.Leaps next q) :
      ReflTransGen array.Leaps found q := (hway.tail hleap).trans hq
  obtain ⟨top', hgreatest⟩ : ∃ top', IsGreatest { q | ReflTransGen array.Leaps next q } top' := by
    have hbound : BddAbove { q | ReflTransGen array.Leaps next q } :=
      ⟨top, fun q hq => hle (hahead hq)⟩
    exact hbound.exists_isGreatest_of_nonempty ⟨next, .refl⟩
  -- so the jump at the top is retargeted to the highest index behind it
  have hcommand : collapsed.command? top = some (.jump top') := by
    obtain ⟨target, hjump, hfirst⟩ := hleap
    exact destination?_jump.mp (destination?_of_spins h (destination?_jump.mpr hjump)
      ⟨next, hfirst, fun q hq => hjumps q (hahead hq), hgreatest⟩)
  have hrests : collapsed.Rests top ↔ top' = top := by
    simp [Rests, Loops, hcommand, Command.IsJump]
  rw [hrests]
  constructor
  · rintro rfl
    exact .head' hleap hgreatest.1
  · intro hcircle
    obtain ⟨next', hleap', hback⟩ := TransGen.head'_iff.mp hcircle
    obtain rfl := leaps_rightUnique hleap hleap'
    exact Nat.le_antisymm (hle (hahead hgreatest.1)) (hgreatest.2 hback)

/-- Where collapsing jumps leaves a jump. After the jumps of a body are collapsed, everything that
something leads to holds a command, and this is no jump or jumps to itself exactly if no jumps
descend from it to a cell that jumps to itself. Every circle of jumps is left with one cell. Where a
destination of the decoded cells has only jumps ahead, it is replaced by the highest of them, and
that cell jumps to itself exactly if it lies on the circle and not on the way into it. -/
theorem collapseJumps_rests {hierarchy : Option ClassHierarchy} {method : MethodKey} {body : Body}
    (h : ofBody hierarchy method body = .ok array) :
    ∃ collapsed, array.collapseJumps = .ok collapsed ∧
      (∀ dest, collapsed.Refers dest → (collapsed.command? dest).isSome ∧
        (collapsed.Rests dest ↔
          ¬∃ loop, TransGen collapsed.Descends dest loop ∧ collapsed.Loops loop)) ∧
      (∀ p, TransGen collapsed.Leaps p p → collapsed.Loops p) ∧
      ∀ reference dest top, array.destination? reference = some dest → array.Spins dest top →
        collapsed.destination? reference = some top ∧
          (collapsed.Rests top ↔ TransGen array.Leaps top top) := by
  obtain ⟨collapsed, hrun, -⟩ := exists_collapseJumps_of_ofBody h
  refine ⟨collapsed, hrun, fun dest hdest => ⟨(lands_of_refers hrun hdest).isSome, ?_⟩,
    fun p => loops_of_circle hrun, fun reference dest top hdest hspins =>
      ⟨destination?_of_spins hrun hdest hspins, hspins.rests_iff hrun⟩⟩
  constructor
  · rintro hrests ⟨loop, hdown, -⟩
    exact hrests.not_descends hdown
  · exact fun hnone => (rests_or_descends hrun hdest).resolve_right hnone

/-- A jump to itself, which the entrance leads to by a jump from above. -/
def aboveBody : Body :=
  ⟨#[some ⟨"goto", ["2"], none⟩, some ⟨"goto", ["1"], none⟩, some ⟨"goto", ["1"], none⟩]⟩

/-- The cells of `aboveBody`. -/
def aboveCells : CellArray where
  method := ⟨"t/A", "m:()V"⟩
  cells := #[⟨some 1, some (.jump 2)⟩, ⟨some 2, some (.jump 1)⟩, ⟨some 3, some (.jump 1)⟩,
    ⟨none, some .ret⟩]
  entrance := 0

/-- The cells of `aboveBody` after jumps are collapsed. -/
def aboveCollapsed : CellArray :=
  { aboveCells with entrance := 2 }

/-- Collapsing the jumps of `aboveBody` enters it at a jump to another cell. -/
theorem aboveBody_enters_jump :
    ofBody none ⟨"t/A", "m:()V"⟩ aboveBody = .ok aboveCells ∧
      aboveCells.collapseJumps = .ok aboveCollapsed ∧ aboveCollapsed.Refers 2 ∧
      aboveCollapsed.command? 2 = some (.jump 1) ∧ ¬aboveCollapsed.Rests 2 := by
  have hcommand : aboveCollapsed.command? 2 = some (.jump 1) := rfl
  refine ⟨rfl, by decide +kernel, .inl rfl, hcommand, ?_⟩
  simp [Rests, Loops, hcommand, Command.IsJump]

/-- The circle of three jumps in `circlingBody` is entered from below, so the call before it falls
through to the highest of them, which is left jumping to itself. -/
theorem collapseJumps_rests_circling :
    ofBody none ⟨"t/A", "m:()V"⟩ circlingBody = .ok circlingCells ∧
      circlingCells.Spins 2 4 ∧ TransGen circlingCells.Leaps 4 4 ∧
      ∃ collapsed, circlingCells.collapseJumps = .ok collapsed ∧ collapsed.next? 1 = some 4 ∧
        collapsed.Rests 4 := by
  have hcells : ofBody none ⟨"t/A", "m:()V"⟩ circlingBody = .ok circlingCells := rfl
  have hspins : circlingCells.Spins 2 4 := by
    refine spins_iff.mpr ⟨?_, 3, rfl⟩
    rw [← finalDestination_eq_ok_iff le_rfl]
    decide +kernel
  have hleap {p q : Nat} (hjump : circlingCells.command? p = some (.jump q))
      (hq : (circlingCells.command? q).isSome) : circlingCells.Leaps p q := ⟨q, hjump, .self hq⟩
  have hcircle : TransGen circlingCells.Leaps 4 4 :=
    .head (hleap (q := 3) rfl rfl) (.head (hleap (q := 2) rfl rfl) (.single (hleap rfl rfl)))
  obtain ⟨collapsed, hrun, -, -, hentered⟩ := collapseJumps_rests hcells
  obtain ⟨hnext, hrests⟩ := hentered (.next 1) 2 4 rfl hspins
  exact ⟨hcells, hspins, hcircle, collapsed, hrun, hnext, hrests.mpr hcircle⟩

end CallNgrams.CellArray
