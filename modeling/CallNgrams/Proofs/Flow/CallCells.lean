import CallNgrams.Proofs.Flow.Compile
import CallNgrams.Proofs.Flow.Linking
import CallNgrams.Proofs.Flow.Fixpoint

/-!
# Calls keep their place

No pass over the cells of a method adds, moves or changes a call: commands are only rewritten where
control jumps or branches, and skipping a call moves the references to it but leaves its cell. So
the calls of a compiled method are those of the decoded cells, at the same indices, also where
control no longer gets.
-/

namespace CallNgrams

/-- What a command calls. -/
def Command.called? : Command → Option CallTarget
  | .call target => some target
  | _ => none

/-- Only calls call something. -/
theorem Command.called?_eq_some_iff {command : Command} {target : CallTarget} :
    command.called? = some target ↔ command = .call target := by
  cases command <;> simp [called?]

/-- Moving references changes where a command leads, not what it calls. -/
@[simp] theorem Command.called?_redirect (old new : Nat) (command : Command) :
    (command.redirect old new).called? = command.called? := by
  cases command with
  | branch targets =>
    rw [redirect]
    split <;> rfl
  | ret | raise | jump _ | call _ => rfl

namespace CellArray

variable {array : CellArray} {index : Nat} {command : Command}

/-- What is called at an index. -/
def callAt? (array : CellArray) (index : Nat) : Option CallTarget :=
  (array.command? index).bind Command.called?

/-- Something is called at an index if the command there is a call of it. -/
theorem callAt?_eq_some_iff {target : CallTarget} :
    array.callAt? index = some target ↔ array.command? index = some (.call target) := by
  simp [callAt?, Option.bind_eq_some_iff, Command.called?_eq_some_iff]

theorem callAt?_of_command (h : array.command? index = some command) :
    array.callAt? index = command.called? := by
  rw [callAt?, h, Option.bind_some]

/-! ## Single changes -/

/-- A new fallthrough leaves all calls. -/
@[simp] theorem callAt?_setNext (next : Option Nat) :
    (array.setNext index next).callAt? = array.callAt? := by
  funext i
  rw [callAt?, command?_setNext, callAt?]

/-- A command that calls nothing may be replaced by another one that calls nothing. -/
theorem callAt?_setCommand (hold : array.callAt? index = none) (hnew : command.called? = none) :
    (array.setCommand index command).callAt? = array.callAt? := by
  funext i
  rw [callAt?, command?, setCommand, Array.getElem?_modify]
  split
  case isTrue hi =>
    rw [← hi, hold]
    cases array.cells[index]? with
    | none => rfl
    | some cell => exact hnew
  case isFalse => rfl

/-- Moving references leaves all calls. -/
@[simp] theorem callAt?_redirect (old new : Nat) :
    (array.redirect old new).callAt? = array.callAt? := by
  funext i
  rw [callAt?, command?_redirect, callAt?]
  cases array.command? i with
  | none => rfl
  | some command => exact command.called?_redirect old new

/-- Skipping a call leaves it in its cell. -/
@[simp] theorem callAt?_skip (after : Option Nat) :
    (array.skip index after).callAt? = array.callAt? := by
  cases after with
  | none => rfl
  | some next => exact callAt?_redirect index next

/-! ## Passes -/

/-- A branch takes in the commands behind it without touching a call. -/
theorem callAt?_absorb (fuel : Nat) (done : List Nat) (next : Option Nat)
    (h : array.callAt? index = none) :
    (absorb index fuel done next array).callAt? = array.callAt? := by
  induction fuel generalizing done next array with
  | zero => rfl
  | succ fuel ih =>
    cases next with
    | none => rfl
    | some current =>
      rw [absorb]
      split
      case isTrue => rfl
      case isFalse =>
        split
        case h_1 more _ =>
          have hhost : ((array.setCommand index (.branch (Destinations.ofList
              ((array.targets index ++ more).filter (· != current))))).skip current
                (array.next? current)).callAt? = array.callAt? := by
            rw [callAt?_skip, callAt?_setCommand h rfl]
          exact (ih _ _ (hhost ▸ h)).trans hhost
        case h_2 => rfl

/-- Merging branches leaves all calls. -/
theorem callAt?_mergeBranches (array : CellArray) :
    array.mergeBranches.callAt? = array.callAt? := by
  refine List.foldlRecOn (motive := fun b : CellArray => b.callAt? = array.callAt?) _ _ rfl
    fun b hb index _ => ?_
  rw [← hb, mergeBranchAt]
  split
  case h_1 targets hc =>
    have hnone : b.callAt? index = none := callAt?_of_command hc
    have hsorted : (b.setCommand index (.branch (Destinations.ofList targets))).callAt? =
        b.callAt? := callAt?_setCommand hnone rfl
    exact (callAt?_absorb _ _ _ (hsorted ▸ hnone)).trans hsorted
  case h_2 => rfl

/-- The calls that are skipped behind an equal one stay in their cells. -/
theorem callAt?_skipRepeats (target : CallTarget) (fuel : Nat) (done : List Nat)
    (next : Option Nat) (array : CellArray) :
    (skipRepeats target fuel done next array).callAt? = array.callAt? := by
  induction fuel generalizing done next array with
  | zero => rfl
  | succ fuel ih =>
    cases next with
    | none => rfl
    | some current =>
      rw [skipRepeats]
      split
      case isTrue => rfl
      case isFalse =>
        split
        case h_1 =>
          refine (ih _ _ _).trans ?_
          split
          · exact callAt?_skip _
          · rfl
        case h_2 => rfl

/-- Removing repeated calls leaves them in their cells. -/
theorem callAt?_removeRepetitions (array : CellArray) :
    array.removeRepetitions.callAt? = array.callAt? := by
  refine List.foldlRecOn (motive := fun b : CellArray => b.callAt? = array.callAt?) _ _ rfl
    fun b hb index _ => ?_
  rw [← hb, removeRepetitionAt]
  split
  · exact callAt?_skipRepeats _ _ _ _ b
  · rfl

section Collapse

variable {a b : CellArray} {simplified : Bool}

/-- Collapsing the jumps of a cell leaves all calls, for it only rewrites a jump or a branch. -/
theorem Collapse.callAt?_eq {next : Option Nat} (h : a.Collapse index next b simplified) :
    b.callAt? = a.callAt? := by
  have hrewrite {before after : Command} (hc : a.command? index = some before)
      (hbefore : before.called? = none) (hafter : after.called? = none) :
      ((a.setNext index next).setCommand index after).callAt? = a.callAt? := by
    have hnone : a.callAt? index = none := (callAt?_of_command hc).trans hbefore
    rw [callAt?_setCommand (by rwa [callAt?_setNext]) hafter, callAt?_setNext]
  cases h with
  | keep => exact callAt?_setNext next
  | retarget hc | choose hc | simplify hc => exact hrewrite hc rfl rfl

/-- Collapsing jumps until nothing changes leaves all calls. -/
theorem callAt?_collapseJumps (h : a.collapseJumps = .ok b) : b.callAt? = a.callAt? := by
  obtain ⟨mid, hcells, h⟩ := exists_of_bind_eq_ok h
  obtain ⟨entrance, -, h⟩ := exists_of_bind_eq_ok h
  obtain rfl := Except.ok.inj h
  have hmid : mid.callAt? = a.callAt? :=
    collapseCells_keeps (P := fun array => array.callAt? = a.callAt?)
      (fun _ _ hc hcalls => hc.callAt?_eq.trans hcalls) le_rfl hcells rfl
  exact hmid

end Collapse

end CellArray

/-! ## Linking -/

/-- What is called at an index. -/
def MethodGraph.callAt? (graph : MethodGraph) (index : Nat) : Option CallTarget :=
  (graph.node? index).bind fun node => node.command.called?

/-- Something is called at an index of a graph if the node there is a call of it. -/
theorem MethodGraph.callAt?_eq_some_iff {graph : MethodGraph} {index : Nat} {target : CallTarget} :
    graph.callAt? index = some target ↔ ∃ next, graph.node? index = some ⟨next, .call target⟩ := by
  simp only [callAt?, Option.bind_eq_some_iff, Command.called?_eq_some_iff]
  constructor
  · rintro ⟨⟨next, command⟩, hnode, rfl⟩
    exact ⟨next, hnode⟩
  · rintro ⟨next, hnode⟩
    exact ⟨_, hnode, rfl⟩

/-- Replacing destinations does not change what a command calls. -/
theorem Command.Replaces.called?_eq {R : Nat → Nat → Prop} {command linked : Command}
    (h : command.Replaces R linked) : linked.called? = command.called? := by
  cases h <;> rfl

namespace CellArray

variable {array : CellArray} {graph : MethodGraph}

/-- A graph makes the calls of the cells that it was linked from. -/
theorem callAt?_link {points : List Nat} (h : array.link points = .ok graph) :
    graph.callAt? = array.callAt? := by
  funext index
  have hbecomes := becomesNode_of_link h index
  rw [MethodGraph.callAt?, callAt?]
  generalize array.command? index = command at hbecomes
  generalize graph.node? index = node at hbecomes
  cases hbecomes with
  | none => rfl
  | some hnode => exact hnode.command.called?_eq

/-- All passes together leave the calls of the cells where they are. -/
theorem callAt?_toGraph {removeRepetition : Bool} (h : array.toGraph removeRepetition = .ok graph) :
    graph.callAt? = array.callAt? := by
  obtain ⟨collapsed, mergePoints, hcollapse, hlink⟩ := toGraph_eq_ok h
  have hmerged : collapsed.mergeBranches.callAt? = array.callAt? :=
    (callAt?_mergeBranches collapsed).trans (callAt?_collapseJumps hcollapse)
  rw [callAt?_link hlink]
  split
  · rw [callAt?_removeRepetitions, hmerged]
  · exact hmerged

end CellArray

end CallNgrams
