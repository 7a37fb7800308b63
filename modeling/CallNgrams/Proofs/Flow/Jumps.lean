import Mathlib.Data.Finset.Card
import Mathlib.Data.Finset.Range
import CallNgrams.Proofs.Flow.Cell

/-!
# Where jumps end

Before destinations are collapsed they may name cells without a command, which pass control on. In
this reading of an array control slides from every destination to its final destination. A final
destination that is a jump itself stands for a circle of jumps, in which nothing happens any more.
-/

namespace CallNgrams.CellArray

variable {array : CellArray} {i j : Nat} {site : Option CallSite}

/-- One step over cells, where a cell without a command passes control on to the next index. -/
def Drift (array : CellArray) : Transition :=
  fun i site j => array.Step i site j ∨
    (i < array.size ∧ array.command? i = none ∧ site = none ∧ j = i + 1)

theorem drift_of_command {command : Command} (h : array.command? i = some command) :
    array.Drift i site j ↔ command.Moves i (array.next? i) site j := by
  constructor
  · rintro (⟨command', h', hm⟩ | ⟨-, hnone, -⟩)
    · obtain rfl := Option.some.inj (h.symm.trans h')
      exact hm
    · rw [h] at hnone
      cases hnone
  · exact fun hm => .inl ⟨command, h, hm⟩

/-- A cell without a command passes control on. -/
theorem drift_of_empty (h : array.command? i = none) (hi : i < array.size) :
    array.Drift i site j ↔ site = none ∧ j = i + 1 := by
  constructor
  · rintro (⟨command, hc, -⟩ | ⟨-, -, hj⟩)
    · rw [h] at hc
      cases hc
    · exact hj
  · exact fun hj => .inr ⟨hi, h, hj⟩

/-- Control slides to the first command at or after an index. -/
theorem FirstCommand.slide {found : Nat} (h : array.FirstCommand i found) :
    Slide array.Drift i found := by
  obtain ⟨count, rfl⟩ := Nat.exists_eq_add_of_le h.le
  have hlt := h.lt_size
  induction count generalizing i with
  | zero => exact .refl i
  | succ count ih =>
    have hempty := h.empty i (Nat.le_refl i) (by omega)
    have hi : i < array.size := by omega
    have hshift : i + (count + 1) = i + 1 + count := by omega
    rw [hshift] at h hlt ⊢
    refine .step ((drift_of_empty hempty hi).mpr ⟨rfl, rfl⟩)
      (fun site q hs => (drift_of_empty hempty hi).mp hs) (ih ?_ hlt)
    exact ⟨by omega, h.isSome, fun k hk hlt => h.empty k (by omega) hlt⟩

/-- Control slides along a jump. -/
theorem slide_jump {target : Nat} (h : array.command? i = some (.jump target)) :
    Slide array.Drift i target := by
  refine .step ((drift_of_command h).mpr .jump) (fun site q hs => ?_) (.refl target)
  cases (drift_of_command h).mp hs
  exact ⟨rfl, rfl⟩

/-! ## Circles of jumps -/

/-- The command that a jump leads to. -/
def hop (array : CellArray) (index : Nat) : Nat :=
  match array.command? index with
  | some (.jump target) => (array.commandFrom? target).getD index
  | _ => index

/-- The first `count` commands on the way from an index on are jumps. -/
def JumpsFor (array : CellArray) (count index : Nat) : Prop :=
  ∀ k < count, ∃ target, array.command? (array.hop^[k] index) = some (.jump target)

/-- A jump leads to the first command from its target on. -/
theorem InRange.firstCommand_hop (h : array.InRange) {target : Nat}
    (hc : array.command? i = some (.jump target)) : array.FirstCommand target (array.hop i) := by
  have htarget : target < array.size := h.destination_lt hc (by simp [Command.destinations])
  obtain ⟨found, hf, hfirst⟩ := exists_commandFrom? (Nat.le_sub_one_of_lt htarget) h.last
  rw [hop, hc]
  simpa only [hf, Option.getD_some] using hfirst

/-- A jump before some jumps makes one more. -/
theorem JumpsFor.cons {count target : Nat} (hc : array.command? i = some (.jump target))
    (h : array.JumpsFor count (array.hop i)) : array.JumpsFor (count + 1) i := by
  intro k hk
  cases k with
  | zero => exact ⟨target, hc⟩
  | succ k => exact h k (by omega)

private theorem foldl_count {α : Type} (p : α → Bool) (cells : List α) (count : Nat) :
    cells.foldl (fun count cell => if p cell then count + 1 else count) count =
      count + cells.countP p := by
  induction cells generalizing count with
  | nil => rfl
  | cons cell cells ih =>
    rw [List.foldl_cons, ih, List.countP_cons]
    split <;> omega

private theorem countP_range_getElem? {α : Type} (p : α → Bool) (cells : List α) :
    (List.range cells.length).countP (fun k => cells[k]?.any p) = cells.countP p := by
  induction cells with
  | nil => rfl
  | cons cell cells ih =>
    rw [List.length_cons, List.range_succ_eq_map, List.countP_cons, List.countP_cons,
      List.countP_map, ← ih]
    rfl

/-- Commands are counted by index. -/
theorem commandCount_eq (array : CellArray) :
    array.commandCount =
      ((List.range array.size).filter fun k => (array.command? k).isSome).length := by
  have hread (k : Nat) : (array.cells.toList[k]?.any fun cell => cell.command.isSome) =
      (array.command? k).isSome := by
    rw [command?, Array.getElem?_toList]
    cases array.cells[k]? <;> rfl
  rw [commandCount, ← Array.foldl_toList, foldl_count, Nat.zero_add, ← countP_range_getElem?,
    List.countP_eq_length_filter]
  simp only [hread, size, Array.length_toList]

/-- Arrays with commands at the same indices have as many of them. -/
theorem commandCount_congr {other : CellArray} (hsize : array.size = other.size)
    (h : ∀ k, (array.command? k).isSome = (other.command? k).isSome) :
    array.commandCount = other.commandCount := by
  rw [commandCount_eq, commandCount_eq, hsize]
  congr 2
  funext k
  exact h k

/-- More jumps in a row than there are commands never end: the way repeats itself. -/
theorem JumpsFor.forever (h : array.JumpsFor (array.commandCount + 1) i) (count : Nat) :
    array.JumpsFor count i := by
  let commands := ((List.range array.size).filter fun k => (array.command? k).isSome).toFinset
  have hcard : commands.card < (Finset.range (array.commandCount + 1)).card := by
    rw [Finset.card_range, commandCount_eq]
    exact Nat.lt_succ_of_le (List.toFinset_card_le _)
  have hmem : ∀ k ∈ Finset.range (array.commandCount + 1), array.hop^[k] i ∈ commands := by
    intro k hk
    obtain ⟨target, hc⟩ := h k (Finset.mem_range.mp hk)
    simp [commands, hc, lt_size_of_command? hc]
  obtain ⟨a, ha, b, hb, hne, heq⟩ :=
    Finset.exists_ne_map_eq_of_card_lt_of_maps_to hcard hmem
  rw [Finset.mem_range] at ha hb
  obtain ⟨first, again, hlt, hagain, hrepeat⟩ : ∃ first again, first < again ∧
      again < array.commandCount + 1 ∧ array.hop^[first] i = array.hop^[again] i := by
    rcases Nat.lt_or_gt_of_ne hne with hab | hba
    · exact ⟨a, b, hab, hb, heq⟩
    · exact ⟨b, a, hba, ha, heq.symm⟩
  intro k _
  induction k using Nat.strongRecOn with
  | ind k ih =>
    by_cases hk : k < array.commandCount + 1
    · exact h k hk
    · have hback : array.hop^[k] i = array.hop^[k - (again - first)] i := by
        have hk' : k = k - again + again := by omega
        rw [hk', Function.iterate_add_apply, ← hrepeat, ← Function.iterate_add_apply]
        congr 2
        omega
      rw [hback]
      exact ih _ (by omega) (by omega)

/-- Where control gets from an index on there are only jumps. -/
def Circles (array : CellArray) (index : Nat) : Prop :=
  ∃ found, array.FirstCommand index found ∧ ∀ count, array.JumpsFor count found

/-- A circle of jumps makes no call and never ends. -/
theorem InRange.mute_of_circles (h : array.InRange) (hc : array.Circles i) :
    Mute array.Drift i := by
  refine Mute.of_closed array.Circles ?_ ?_ hc
  · rintro p ⟨found, hfirst, hjumps⟩
    cases hp : array.command? p with
    | none =>
      have := hfirst.le
      have := hfirst.lt_size
      exact ⟨p + 1, (drift_of_empty hp (by omega)).mpr ⟨rfl, rfl⟩⟩
    | some command =>
      obtain rfl := hfirst.unique (.self (by simp [hp]))
      obtain ⟨target, hj⟩ := hjumps 1 0 (by omega)
      exact ⟨target, (drift_of_command hj).mpr .jump⟩
  · rintro p site q ⟨found, hfirst, hjumps⟩ hs
    cases hp : array.command? p with
    | none =>
      have hlt : p < found := by
        refine Nat.lt_of_le_of_ne hfirst.le fun he => ?_
        have := hfirst.isSome
        rw [← he, hp] at this
        cases this
      have hsize := hfirst.lt_size
      obtain ⟨rfl, rfl⟩ := (drift_of_empty hp (by omega)).mp hs
      exact ⟨rfl, found, ⟨hlt, hfirst.isSome, fun k hk => hfirst.empty k (by omega)⟩, hjumps⟩
    | some command =>
      obtain rfl := hfirst.unique (.self (by simp [hp]))
      obtain ⟨target, hj⟩ := hjumps 1 0 (by omega)
      cases (drift_of_command hj).mp hs
      refine ⟨rfl, array.hop found, h.firstCommand_hop hj, fun count k hk => ?_⟩
      exact hjumps (k + 2) (k + 1) (by omega)

/-! ## Final destinations -/

/-- What following jumps from `start` can end at, after so many commands from `found` on. -/
structure ChaseEnd (array : CellArray) (start found steps dest : Nat) : Prop where
  slide : Slide array.Drift start dest
  isSome : (array.command? dest).isSome
  jumps : ∀ target, array.command? dest = some (.jump target) → array.JumpsFor steps found

/-- Following jumps always ends, and it ends where `ChaseEnd` says. -/
theorem InRange.chase_end (h : array.InRange) {start found highest steps dest : Nat}
    (hhigh : Slide array.Drift start highest) (hsome : (array.command? highest).isSome)
    (hstart : Slide array.Drift start dest) (hfound : array.FirstCommand dest found) :
    ∃ last, array.chase steps highest dest = .ok last ∧
      array.ChaseEnd start found steps last := by
  induction steps generalizing highest dest found with
  | zero => exact ⟨highest, rfl, hhigh, hsome, fun _ _ k hk => absurd hk (Nat.not_lt_zero k)⟩
  | succ steps ih =>
    have hslide : Slide array.Drift start found := hstart.trans hfound.slide
    rw [chase, commandFrom_eq_ok hfound]
    simp only [bind, Except.bind]
    split
    case h_1 target hj =>
      have hnext := h.firstCommand_hop hj
      have hmax : Slide array.Drift start (max highest found) ∧
          (array.command? (max highest found)).isSome := by
        rcases Nat.le_total highest found with hle | hle
        · rw [Nat.max_eq_right hle]
          exact ⟨hslide, hfound.isSome⟩
        · rw [Nat.max_eq_left hle]
          exact ⟨hhigh, hsome⟩
      simp only [commandFrom_eq_ok hnext]
      split
      case isTrue hself =>
        refine ⟨_, rfl, hmax.1, hmax.2, fun _ _ k _ => ?_⟩
        have hfix : array.hop^[k] found = found := Function.iterate_fixed hself k
        rw [hfix]
        exact ⟨target, hj⟩
      case isFalse =>
        obtain ⟨last, hlast, hend⟩ := ih hmax.1 hmax.2
          ((hslide.trans (slide_jump hj)).trans hnext.slide) (.self hnext.isSome)
        exact ⟨last, hlast, hend.slide, hend.isSome,
          fun t ht => (hend.jumps t ht).cons hj⟩
    case h_2 hnojump =>
      exact ⟨found, rfl, hslide, hfound.isSome, fun t ht => absurd ht (hnojump t)⟩

/-- What the final destination of an index is to it: control slides there, and if the command there
is a jump, nothing happens any more on the way. -/
structure EndsAt (array : CellArray) (dest last : Nat) : Prop where
  slide : Slide array.Drift dest last
  isSome : (array.command? last).isSome
  mute {target : Nat} : array.command? last = some (.jump target) → Mute array.Drift dest

/-- Every index in range has a final destination. -/
theorem InRange.endsAt (h : array.InRange) {dest : Nat} (hd : dest < array.size) :
    ∃ last, array.finalDestination array.commandCount dest = .ok last ∧
      array.EndsAt dest last := by
  obtain ⟨found, hfound⟩ := h.exists_firstCommand hd
  -- The first command on the way is at least zero, so the search may as well start from it.
  have hzero : array.chase (array.commandCount + 1) 0 dest =
      array.chase (array.commandCount + 1) found dest := by
    simp only [chase, commandFrom_eq_ok hfound, bind, Except.bind, Nat.zero_max, Nat.max_self]
  obtain ⟨last, hlast, hend⟩ :=
    h.chase_end hfound.slide hfound.isSome (.refl dest) hfound
  refine ⟨last, hzero.trans hlast, hend.slide, hend.isSome, fun {target} ht => ?_⟩
  exact h.mute_of_circles ⟨found, hfound, (hend.jumps target ht).forever⟩

/-- A command that is no jump is its own final destination. -/
theorem finalDestination_self {commands : Nat} {command : Command}
    (h : array.command? i = some command) (hj : ¬command.IsJump) :
    array.finalDestination commands i = .ok i := by
  rw [finalDestination, chase, commandFrom_self (by simp [h])]
  simp only [bind, Except.bind, h]
  cases command with
  | jump target => exact absurd trivial hj
  | _ => rfl

end CallNgrams.CellArray
