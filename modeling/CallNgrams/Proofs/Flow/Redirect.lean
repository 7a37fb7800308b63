import CallNgrams.Proofs.Flow.Cell

/-!
# Moving references past a cell

When every reference to a cell is moved to another one, each step of another cell leads where it led
before, or to the new destination if it led to the old one. The cell itself keeps its fallthrough.
-/

namespace CallNgrams

/-- A destination, after the references to `old` are moved to `new`. -/
def moved (old new dest : Nat) : Nat :=
  if dest = old then new else dest

section Moved

variable {old new dest : Nat}

@[simp] theorem moved_old : moved old new old = new :=
  if_pos rfl

/-- Other destinations stay. -/
theorem moved_of_ne (h : dest ≠ old) : moved old new dest = dest :=
  if_neg h

@[simp] theorem moved_same : moved old old dest = dest := by
  by_cases h : dest = old
  · rw [h, moved_old]
  · exact moved_of_ne h

/-- A reference that is moved leads away from the old destination. -/
theorem moved_ne_old (h : new ≠ old) : moved old new dest ≠ old := by
  by_cases hd : dest = old
  · rwa [hd, moved_old]
  · rwa [moved_of_ne hd]

end Moved

namespace Command

variable {old new i dest : Nat} {command : Command} {site : Option CallSite}

/-- A branch stays a branch, and each of its targets is moved. -/
theorem redirect_branch (old new : Nat) (targets : List Nat) :
    ∃ targets', (Command.branch targets).redirect old new = .branch targets' ∧
      ∀ dest, dest ∈ targets' ↔ ∃ d ∈ targets, dest = moved old new d := by
  by_cases h : targets.contains old
  · refine ⟨_, if_pos h, fun dest => ?_⟩
    rw [Destinations.mem_ofList, List.mem_map]
    exact exists_congr fun d => and_congr_right fun _ => eq_comm
  · refine ⟨targets, if_neg h, fun dest => ?_⟩
    have hne : ∀ d ∈ targets, d ≠ old := by
      rintro d hd rfl
      exact h (List.contains_iff_mem.mpr hd)
    constructor
    · intro hd
      exact ⟨dest, hd, (moved_of_ne (hne dest hd)).symm⟩
    · rintro ⟨d, hd, rfl⟩
      rwa [moved_of_ne (hne d hd)]

/-- Each destination of a command is moved. -/
theorem mem_destinations_redirect :
    dest ∈ (command.redirect old new).destinations ↔
      ∃ d ∈ command.destinations, dest = moved old new d := by
  cases command with
  | jump target => simp [redirect, destinations, moved]
  | branch targets =>
    obtain ⟨targets', hr, hmem⟩ := redirect_branch old new targets
    rw [hr]
    exact hmem dest
  | ret => simp [redirect, destinations]
  | raise => simp [redirect, destinations]
  | call target => simp [redirect, destinations]

/-- Moving references does not change whether control can fall through. -/
theorem falls_redirect : (command.redirect old new).Falls ↔ command.Falls := by
  cases command with
  | branch targets =>
    obtain ⟨targets', hr, -⟩ := redirect_branch old new targets
    rw [hr]
    exact Iff.rfl
  | ret | raise | jump _ | call _ => exact Iff.rfl

/-- Only branches become branches. -/
theorem redirect_eq_branch :
    (∃ targets, command.redirect old new = .branch targets) ↔
      ∃ targets, command = .branch targets := by
  cases command with
  | branch targets =>
    obtain ⟨targets', hr, -⟩ := redirect_branch old new targets
    exact ⟨fun _ => ⟨targets, rfl⟩, fun _ => ⟨targets', hr⟩⟩
  | ret | raise | jump _ | call _ => simp [redirect]

/-- A command with moved destinations goes where the command goes, with the destination moved. -/
theorem moves_redirect {next : Option Nat} :
    (command.redirect old new).Moves i (next.map (moved old new)) site dest ↔
      ∃ d, command.Moves i next site d ∧ dest = moved old new d := by
  cases command with
  | ret | raise =>
    constructor
    · rintro ⟨⟩
    · rintro ⟨d, ⟨⟩, -⟩
  | jump target =>
    constructor
    · rintro ⟨⟩
      exact ⟨target, .jump, rfl⟩
    · rintro ⟨d, ⟨⟩, rfl⟩
      exact .jump
  | branch targets =>
    obtain ⟨targets', hr, hmem⟩ := redirect_branch old new targets
    rw [hr]
    constructor
    · rintro (_ | ht | hn)
      · obtain ⟨d, hd, rfl⟩ := (hmem dest).mp ht
        exact ⟨d, .choose hd, rfl⟩
      · obtain ⟨d, hd, rfl⟩ := Option.map_eq_some_iff.mp hn
        exact ⟨d, .decline hd, rfl⟩
    · rintro ⟨d, (_ | hd | hn), rfl⟩
      · exact .choose ((hmem _).mpr ⟨d, hd, rfl⟩)
      · exact .decline (Option.map_eq_some_iff.mpr ⟨d, hn, rfl⟩)
  | call target =>
    constructor
    · rintro (_ | _ | _ | hn)
      obtain ⟨d, hd, rfl⟩ := Option.map_eq_some_iff.mp hn
      exact ⟨d, .call hd, rfl⟩
    · rintro ⟨d, (_ | _ | _ | hd), rfl⟩
      exact .call (Option.map_eq_some_iff.mpr ⟨d, hd, rfl⟩)

end Command

namespace CellArray

variable {array : CellArray} {old new i dest : Nat} {site : Option CallSite}

@[simp] theorem size_redirect : (array.redirect old new).size = array.size := by
  simp [size, redirect]

theorem entrance_redirect : (array.redirect old new).entrance = moved old new array.entrance :=
  rfl

/-- The references of every command are moved. -/
theorem command?_redirect :
    (array.redirect old new).command? i = (array.command? i).map (Command.redirect old new) := by
  rw [command?, command?, redirect, Array.getElem?_mapIdx]
  cases array.cells[i]? <;> rfl

/-- Every command of the new array comes from one of the old array. -/
theorem exists_command?_of_redirect {redirected : Command}
    (h : (array.redirect old new).command? i = some redirected) :
    ∃ command, array.command? i = some command ∧ redirected = command.redirect old new := by
  rw [command?_redirect] at h
  obtain ⟨command, hc, hr⟩ := Option.map_eq_some_iff.mp h
  exact ⟨command, hc, hr.symm⟩

@[simp] theorem isSome_command?_redirect :
    ((array.redirect old new).command? i).isSome = (array.command? i).isSome := by
  rw [command?_redirect, Option.isSome_map]

/-- The fallthroughs of the other cells are moved like their commands. -/
theorem next?_redirect_of_ne (hi : i ≠ old) :
    (array.redirect old new).next? i = (array.next? i).map (moved old new) := by
  rw [next?, next?, redirect, Array.getElem?_mapIdx]
  cases array.cells[i]? with
  | none => rfl
  | some cell =>
    obtain ⟨next, command⟩ := cell
    cases next with
    | none => simp [Cell.redirect]
    | some next => by_cases hn : next = old <;> simp [Cell.redirect, hi, hn, moved]

/-- The cell itself keeps its fallthrough. -/
@[simp] theorem next?_redirect_old : (array.redirect old new).next? old = array.next? old := by
  rw [next?, next?, redirect, Array.getElem?_mapIdx]
  cases array.cells[old]? <;> simp [Cell.redirect]

/-- A step of another cell leads where it led before, with the destination moved. -/
theorem step_redirect_of_ne (hi : i ≠ old) :
    (array.redirect old new).Step i site dest ↔
      ∃ d, array.Step i site d ∧ dest = moved old new d := by
  constructor
  · rintro ⟨redirected, hr, hm⟩
    obtain ⟨command, hc, rfl⟩ := exists_command?_of_redirect hr
    rw [next?_redirect_of_ne hi, Command.moves_redirect] at hm
    obtain ⟨d, hd, rfl⟩ := hm
    exact ⟨d, ⟨command, hc, hd⟩, rfl⟩
  · rintro ⟨d, ⟨command, hc, hm⟩, rfl⟩
    refine ⟨command.redirect old new, by rw [command?_redirect, hc]; rfl, ?_⟩
    rw [next?_redirect_of_ne hi, Command.moves_redirect]
    exact ⟨d, hm, rfl⟩

/-- Moving references to where a cell with a command is keeps an array resolved. -/
theorem Resolved.redirect (h : array.Resolved) (hnew : (array.command? new).isSome) :
    (array.redirect old new).Resolved := by
  have hmoved : ∀ d, (array.command? d).isSome → (array.command? (moved old new d)).isSome := by
    intro d hd
    by_cases he : d = old
    · rwa [he, moved_old]
    · rwa [moved_of_ne he]
  refine ⟨?_, ?_, ?_, ?_⟩
  · rw [isSome_command?_redirect]
    exact hmoved _ h.entrance
  · intro i dest hn
    rw [isSome_command?_redirect]
    by_cases hi : i = old
    · subst hi
      exact h.next (next?_redirect_old ▸ hn)
    · rw [next?_redirect_of_ne hi] at hn
      obtain ⟨d, hd, rfl⟩ := Option.map_eq_some_iff.mp hn
      exact hmoved d (h.next hd)
  · intro i dest redirected hr hd
    rw [isSome_command?_redirect]
    obtain ⟨command, hc, rfl⟩ := exists_command?_of_redirect hr
    obtain ⟨d, hold, rfl⟩ := Command.mem_destinations_redirect.mp hd
    exact hmoved d (h.destination hc hold)
  · intro i redirected hr hf
    obtain ⟨command, hc, rfl⟩ := exists_command?_of_redirect hr
    have hnext := h.falls hc (Command.falls_redirect.mp hf)
    by_cases hi : i = old
    · subst hi
      rwa [next?_redirect_old]
    · rwa [next?_redirect_of_ne hi, Option.isSome_map]

end CellArray

end CallNgrams
