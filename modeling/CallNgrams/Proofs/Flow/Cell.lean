import CallNgrams.Proofs.Flow.Semantics

/-!
# Reading and writing cells

What the commands and fallthroughs of an array are after one cell is written, which command a
destination resolves to, and the two forms that arrays have on their way: destinations are in range
after decoding, and hold commands after jumps are collapsed.
-/

namespace CallNgrams

/-- The destinations that a command names. -/
def Command.destinations : Command → List Nat
  | .jump target => [target]
  | .branch targets => targets
  | _ => []

/-- Whether control can fall through a command. -/
def Command.Falls : Command → Prop
  | .branch _ | .call _ => True
  | _ => False

/-- Whether a command does nothing but jump. -/
def Command.IsJump : Command → Prop
  | .jump _ => True
  | _ => False

namespace CellArray

variable {array : CellArray} {i j : Nat}

@[simp] theorem size_setNext (next : Option Nat) : (array.setNext i next).size = array.size := by
  simp [size, setNext]

@[simp] theorem size_setCommand (command : Command) :
    (array.setCommand i command).size = array.size := by
  simp [size, setCommand]

@[simp] theorem command?_setNext (next : Option Nat) :
    (array.setNext i next).command? j = array.command? j := by
  rw [command?, command?, setNext, Array.getElem?_modify]
  split
  · cases array.cells[j]? <;> rfl
  · rfl

/-- The new fallthrough is found at its cell only. -/
theorem next?_setNext (next : Option Nat) (h : i < array.size) :
    (array.setNext i next).next? j = if i = j then next else array.next? j := by
  rw [next?, next?, setNext, Array.getElem?_modify]
  split
  · subst j
    rw [Array.getElem?_eq_getElem h]
    rfl
  · rfl

/-- The new command is found at its cell only. -/
theorem command?_setCommand (command : Command) (h : i < array.size) :
    (array.setCommand i command).command? j =
      if i = j then some command else array.command? j := by
  rw [command?, command?, setCommand, Array.getElem?_modify]
  split
  · subst j
    rw [Array.getElem?_eq_getElem h]
    rfl
  · rfl

@[simp] theorem next?_setCommand (command : Command) :
    (array.setCommand i command).next? j = array.next? j := by
  rw [next?, next?, setCommand, Array.getElem?_modify]
  split
  · cases array.cells[j]? <;> rfl
  · rfl

theorem lt_size_of_command? {command : Command} (h : array.command? i = some command) :
    i < array.size := by
  refine Nat.lt_of_not_le fun hi => ?_
  rw [command?, Array.getElem?_eq_none hi] at h
  cases h

theorem lt_size_of_isSome (h : (array.command? i).isSome) : i < array.size := by
  obtain ⟨command, hc⟩ := Option.isSome_iff_exists.mp h
  exact lt_size_of_command? hc

theorem lt_size_of_next? {dest : Nat} (h : array.next? i = some dest) : i < array.size := by
  refine Nat.lt_of_not_le fun hi => ?_
  rw [next?, Array.getElem?_eq_none hi] at h
  cases h

/-- A cell makes calls at its own index only. -/
theorem sited_step (array : CellArray) : Sited array.Step := by
  rintro p site q ⟨command, -, hm⟩
  cases hm
  rfl

/-! ## The command that a destination resolves to -/

/-- The first index with a command at or after an index. -/
structure FirstCommand (array : CellArray) (index found : Nat) : Prop where
  le : index ≤ found
  isSome : (array.command? found).isSome
  empty : ∀ k, index ≤ k → k < found → array.command? k = none

theorem FirstCommand.lt_size {found : Nat} (h : array.FirstCommand i found) :
    found < array.size :=
  lt_size_of_isSome h.isSome

/-- There is only one first command from an index on. -/
theorem FirstCommand.unique {found found' : Nat} (h : array.FirstCommand i found)
    (h' : array.FirstCommand i found') : found = found' := by
  rcases Nat.lt_trichotomy found found' with hlt | heq | hgt
  · have hs := h.isSome
    rw [h'.empty found h.le hlt] at hs
    cases hs
  · exact heq
  · have hs := h'.isSome
    rw [h.empty found' h'.le hgt] at hs
    cases hs

/-- A cell with a command is the first one from itself on. -/
theorem FirstCommand.self (h : (array.command? i).isSome) : array.FirstCommand i i :=
  ⟨Nat.le_refl i, h, fun _ hle hlt => absurd hlt (Nat.not_lt.mpr hle)⟩

/-- The scan over enough cells finds the first command if there is one among them. -/
private theorem scanCommand_firstCommand {count : Nat} (hlt : j < i + count) (hle : i ≤ j)
    (hj : (array.command? j).isSome) :
    ∃ found, array.scanCommand i count = some found ∧ array.FirstCommand i found := by
  induction count generalizing i with
  | zero => omega
  | succ count ih =>
    rw [scanCommand]
    split
    case isTrue hi => exact ⟨i, rfl, .self hi⟩
    case isFalse hi =>
      have hne : i ≠ j := by
        intro he
        exact hi (he ▸ hj)
      obtain ⟨found, hf, hle', hs, hempty⟩ := ih (i := i + 1) (by omega) (by omega)
      refine ⟨found, hf, by omega, hs, fun k hk hkf => ?_⟩
      by_cases hki : k = i
      · subst k
        exact Option.not_isSome_iff_eq_none.mp hi
      · exact hempty k (by omega) hkf

/-- Resolving a destination succeeds if some command lies at or after it. -/
theorem exists_commandFrom? (hle : i ≤ j) (hj : (array.command? j).isSome) :
    ∃ found, array.commandFrom? i = some found ∧ array.FirstCommand i found := by
  have hlt : j < i + (array.size - i) := by
    have := lt_size_of_isSome hj
    omega
  exact scanCommand_firstCommand hlt hle hj

/-- The first command from an index on is found. -/
theorem commandFrom_eq_ok {found : Nat} (h : array.FirstCommand i found) :
    array.commandFrom i = .ok found := by
  obtain ⟨found', hf, hfirst⟩ := exists_commandFrom? h.le h.isSome
  rw [commandFrom, hf, hfirst.unique h]

/-- What a scan finds is a command from its start on. -/
theorem le_and_isSome_of_scanCommand {count found : Nat}
    (h : array.scanCommand i count = some found) : i ≤ found ∧ (array.command? found).isSome := by
  induction count generalizing i with
  | zero => cases h
  | succ count ih =>
    rw [scanCommand] at h
    split at h
    case isTrue hi =>
      obtain rfl := Option.some.inj h
      exact ⟨Nat.le_refl i, hi⟩
    case isFalse =>
      have hrest := ih h
      exact ⟨Nat.le_of_succ_le hrest.1, hrest.2⟩

/-- What is found from an index on is the first command. -/
theorem commandFrom_eq_ok_iff {found : Nat} :
    array.commandFrom i = .ok found ↔ array.FirstCommand i found := by
  refine ⟨fun h => ?_, commandFrom_eq_ok⟩
  rw [commandFrom] at h
  split at h
  case h_1 found' hfound' =>
    obtain rfl := Except.ok.inj h
    obtain ⟨hle, hsome⟩ := le_and_isSome_of_scanCommand hfound'
    obtain ⟨first, hfirst, hspec⟩ := exists_commandFrom? hle hsome
    obtain rfl := Option.some.inj (hfound'.symm.trans hfirst)
    exact hspec
  case h_2 => cases h

/-- Arrays with commands at the same indices resolve destinations to the same ones. -/
theorem FirstCommand.congr {other : CellArray} {found : Nat}
    (hsome : ∀ k, (other.command? k).isSome = (array.command? k).isSome)
    (h : array.FirstCommand i found) : other.FirstCommand i found where
  le := h.le
  isSome := (hsome found).trans h.isSome
  empty k hle hlt := by
    have hnone := hsome k
    rw [h.empty k hle hlt] at hnone
    simpa using hnone

/-- A destination with a command resolves to itself. -/
theorem commandFrom_self (h : (array.command? i).isSome) : array.commandFrom i = .ok i :=
  commandFrom_eq_ok (.self h)

/-! ## Forms of arrays -/

/-- Every destination lies before the end, the last cell holds a command, and where control can
fall through there is a fallthrough. -/
structure InRange (array : CellArray) : Prop where
  last : (array.command? (array.size - 1)).isSome
  entrance_lt : array.entrance < array.size
  next_lt {i dest : Nat} : array.next? i = some dest → dest < array.size
  destination_lt {i dest : Nat} {command : Command} :
    array.command? i = some command → dest ∈ command.destinations → dest < array.size
  falls {i : Nat} {command : Command} :
    array.command? i = some command → command.Falls → (array.next? i).isSome

/-- Every index in range resolves to a command. -/
theorem InRange.exists_firstCommand (h : array.InRange) (hi : i < array.size) :
    ∃ found, array.FirstCommand i found := by
  obtain ⟨found, -, hfirst⟩ := exists_commandFrom? (Nat.le_sub_one_of_lt hi) h.last
  exact ⟨found, hfirst⟩

/-- Every destination holds a command, and where control can fall through there is a
fallthrough. -/
structure Resolved (array : CellArray) : Prop where
  entrance : (array.command? array.entrance).isSome
  next {i dest : Nat} : array.next? i = some dest → (array.command? dest).isSome
  destination {i dest : Nat} {command : Command} :
    array.command? i = some command → dest ∈ command.destinations → (array.command? dest).isSome
  falls {i : Nat} {command : Command} :
    array.command? i = some command → command.Falls → (array.next? i).isSome

/-- In a resolved array control only gets to cells with commands. -/
theorem Resolved.isSome_of_step (h : array.Resolved) {site : Option CallSite}
    (hs : array.Step i site j) : (array.command? j).isSome := by
  obtain ⟨command, hc, hm⟩ := hs
  cases hm with
  | jump => exact h.destination hc (by simp [Command.destinations])
  | choose ht => exact h.destination hc ht
  | decline hn => exact h.next hn
  | call hn => exact h.next hn

end CellArray

end CallNgrams
