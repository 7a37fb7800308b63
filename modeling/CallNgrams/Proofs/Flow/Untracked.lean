import CallNgrams.Proofs.Flow.CallCells
import CallNgrams.Proofs.Flow.Decodable

/-!
# Untracked calls

With a hierarchy, a dynamic call whose narrowed target is untracked leaves no command. The policy is
not asked about static and special calls, which keep their annotated targets. So the untracked calls
of a compiled method are exactly the static and special calls that are annotated with an untracked
target.
-/

namespace CallNgrams

namespace Flow

variable {hierarchy : Option ClassHierarchy} {context comment : String} {body : Body}
  {index : Nat} {instruction : Instruction} {kind : CallKind} {annotated target : CallTarget}

/-- Only calls decode to calls. -/
theorem command?_eq_call_iff {flow : Flow} :
    flow.command? index = some (.call target) ↔ flow = .call target := by
  cases flow with
  | pass | ret | raise | call => simp [command?]
  | jump dest =>
    rw [command?]
    split <;> simp
  | choice targets =>
    simp only [command?]
    split <;> simp

theorem ofCall_eq_call_iff :
    ofCall hierarchy context body index kind comment = .ok (.call target) ↔
      ∃ annotated, callTarget? context comment = some annotated ∧
        keptTarget hierarchy body index kind annotated = .ok (some target) := by
  rw [ofCall]
  cases callTarget? context comment with
  | none => simp
  | some annotated =>
    simp only [Option.some.injEq, exists_eq_left']
    cases keptTarget hierarchy body index kind annotated with
    | error fault => simp [bind, Except.bind]
    | ok kept => cases kept <;> simp [bind, Except.bind]

/-- An instruction calls a target if it is a call and keeps the target from its comment. -/
theorem ofInstruction_eq_call_iff :
    ofInstruction hierarchy context body index instruction = .ok (.call target) ↔
      ∃ kind annotated, Mnemonic.kind instruction.opcode = .call kind ∧
        callTarget? context (instruction.comment.getD "") = some annotated ∧
        keptTarget hierarchy body index kind annotated = .ok (some target) := by
  have hmap {α : Type} {x : Except DecodeFault α} {g : α → Flow} (hg : ∀ a, g a ≠ .call target) :
      x.map g ≠ .ok (.call target) := by
    intro h
    obtain ⟨a, -, ha⟩ := exists_of_map_eq_ok h
    exact hg a ha
  rw [ofInstruction]
  cases Mnemonic.kind instruction.opcode with
  | ret | raise | plain => simp
  | jump | branch | switch => simp [hmap]
  | call kind => simp [ofCall_eq_call_iff]

/-- With a hierarchy, an untracked target is kept of no dynamic call, and of every other call that
is annotated with it. -/
theorem keptTarget_eq_untracked_iff {known : ClassHierarchy}
    (huntracked : known.untracked.isUntracked target.owner target.signature = true) :
    keptTarget (some known) body index kind annotated = .ok (some target) ↔
      kind.isDynamic = false ∧ annotated = target := by
  rw [keptTarget]
  cases kind.isDynamic with
  | false => simp
  | true =>
    simp only [Bool.not_true, Bool.false_eq_true, if_false, Bool.true_eq_false, false_and,
      iff_false]
    cases Signature.parameterCount annotated.signature with
    | error fault => simp
    | ok count =>
      dsimp only
      split
      · simp
      case isFalse htracked =>
        intro h
        obtain rfl := Option.some.inj (Except.ok.inj h)
        exact htracked huntracked

end Flow

/-- The instruction at an offset is a static or special call that is annotated with the target. -/
def Body.CallsDirectly (context : String) (body : Body) (index : Nat) (target : CallTarget) :
    Prop :=
  ∃ instruction kind, body.get? index = some instruction ∧
    Mnemonic.kind instruction.opcode = .call kind ∧ kind.isDynamic = false ∧
    callTarget? context (instruction.comment.getD "") = some target

variable {method : MethodKey} {body : Body} {array : CellArray} {index : Nat} {target : CallTarget}

/-- The calls of the cells are the instructions that call. -/
theorem CellArray.CellsOf.callAt?_eq_some_iff {hierarchy : Option ClassHierarchy} {context : String}
    (h : CellsOf hierarchy context body array) :
    array.callAt? index = some target ↔ ∃ instruction, body.get? index = some instruction ∧
      Flow.ofInstruction hierarchy context body index instruction = .ok (.call target) := by
  rw [CellArray.callAt?_eq_some_iff]
  constructor
  · intro hc
    have hlt : index < body.size := by
      have hle := lt_size_of_command? hc
      rw [h.size] at hle
      refine Nat.lt_of_le_of_ne (Nat.le_of_lt_succ hle) fun heq => ?_
      rw [heq, h.last] at hc
      cases hc
    obtain ⟨flow, hflow, hcommand⟩ := h.flow hlt
    obtain rfl := Flow.command?_eq_call_iff.mp (hcommand.symm.trans hc)
    rw [Body.flowAt] at hflow
    split at hflow
    case h_1 instruction hget => exact ⟨instruction, hget, hflow⟩
    case h_2 => cases hflow
  · rintro ⟨instruction, hget, hcall⟩
    obtain ⟨flow, hflow, hcommand⟩ := h.flow (Body.lt_size_of_get? hget)
    rw [Body.flowAt, hget] at hflow
    obtain rfl := Except.ok.inj (hflow.symm.trans hcall)
    rw [hcommand, Flow.command?_eq_call_iff]

/-- An untracked target is called in the cells of a method, and in its graph, exactly where the body
has a static or special call that is annotated with it. -/
theorem untracked_calls_exact {hierarchy : ClassHierarchy}
    (h : CellArray.ofBody (some hierarchy) method body = .ok array)
    (huntracked : hierarchy.untracked.isUntracked target.owner target.signature = true) :
    (array.command? index = some (.call target) ↔ body.CallsDirectly method.owner index target) ∧
      ∀ removeRepetition graph, array.toGraph removeRepetition = .ok graph →
        ((∃ next, graph.node? index = some ⟨next, .call target⟩) ↔
          body.CallsDirectly method.owner index target) := by
  have hcalls : array.callAt? index = some target ↔
      body.CallsDirectly method.owner index target := by
    simp only [(CellArray.ofBody_cellsOf h).callAt?_eq_some_iff, Flow.ofInstruction_eq_call_iff,
      Flow.keptTarget_eq_untracked_iff huntracked, Body.CallsDirectly]
    constructor
    · rintro ⟨instruction, hget, kind, annotated, hkind, hannotated, hstatic, rfl⟩
      exact ⟨instruction, kind, hget, hkind, hstatic, hannotated⟩
    · rintro ⟨instruction, kind, hget, hkind, hstatic, hannotated⟩
      exact ⟨instruction, hget, kind, target, hkind, hannotated, hstatic, rfl⟩
  constructor
  · rw [← CellArray.callAt?_eq_some_iff, hcalls]
  · intro removeRepetition graph hgraph
    rw [← MethodGraph.callAt?_eq_some_iff, CellArray.callAt?_toGraph hgraph, hcalls]

/-- A static and a virtual call of synthetic accessors, both of which are untracked. -/
def accessorBody : Body :=
  ⟨#[some ⟨"invokestatic", [], some "// Method t/B.access$000:()V"⟩,
    some ⟨"invokevirtual", [], some "// Method t/B.access$100:()V"⟩, some ⟨"return", [], none⟩]⟩

/-- The cells of `accessorBody`. -/
def accessorCells : CellArray where
  method := ⟨"t/A", "m:()V"⟩
  cells := #[⟨some 2, some (.call ⟨some "t/B", "access$000:()V"⟩)⟩, .empty, ⟨some 3, some .ret⟩,
    ⟨none, some .ret⟩]
  entrance := 0

/-- The graph of `accessorBody`. -/
def accessorGraph : MethodGraph where
  nodes := #[some ⟨some 2, .call ⟨some "t/B", "access$000:()V"⟩⟩, none, some ⟨some 3, .ret⟩,
    some ⟨none, .ret⟩]
  start := 0
  mergePoints := []

/-- The hierarchy of a program that declares no methods. -/
def helperHierarchy : ClassHierarchy :=
  .ofTables ∅ ∅ libraryHelperCalls

/-- The graph of `accessorBody` has a call where a static call is annotated with an untracked
target, and none where a virtual call is. -/
theorem untracked_calls_exact_accessor :
    CellArray.ofBody (some helperHierarchy) ⟨"t/A", "m:()V"⟩ accessorBody = .ok accessorCells ∧
      accessorCells.toGraph true = .ok accessorGraph ∧
      helperHierarchy.untracked.isUntracked (some "t/B") "access$000:()V" = true ∧
      ((∃ next, accessorGraph.node? 0 = some ⟨next, .call ⟨some "t/B", "access$000:()V"⟩⟩) ↔
        accessorBody.CallsDirectly "t/A" 0 ⟨some "t/B", "access$000:()V"⟩) ∧
      helperHierarchy.untracked.isUntracked (some "t/B") "access$100:()V" = true ∧
      ((∃ next, accessorGraph.node? 1 = some ⟨next, .call ⟨some "t/B", "access$100:()V"⟩⟩) ↔
        accessorBody.CallsDirectly "t/A" 1 ⟨some "t/B", "access$100:()V"⟩) := by
  have hbody : CellArray.ofBody (some helperHierarchy) ⟨"t/A", "m:()V"⟩ accessorBody =
      .ok accessorCells := by
    decide +kernel
  have hgraph : accessorCells.toGraph true = .ok accessorGraph := by decide +kernel
  have hstatic : helperHierarchy.untracked.isUntracked (some "t/B") "access$000:()V" = true := by
    decide +kernel
  have hvirtual : helperHierarchy.untracked.isUntracked (some "t/B") "access$100:()V" = true := by
    decide +kernel
  exact ⟨hbody, hgraph, hstatic, (untracked_calls_exact hbody hstatic).2 true _ hgraph, hvirtual,
    (untracked_calls_exact hbody hvirtual).2 true _ hgraph⟩

/-- The cells and the graph of `accessorBody` keep the static call, although its target is
untracked. -/
theorem accessorBody_keeps_untracked :
    CellArray.ofBody (some helperHierarchy) ⟨"t/A", "m:()V"⟩ accessorBody = .ok accessorCells ∧
      accessorCells.toGraph true = .ok accessorGraph ∧
      (¬∀ index target, accessorCells.command? index = some (.call target) →
        helperHierarchy.untracked.isUntracked target.owner target.signature = false) ∧
      ¬∀ index next target, accessorGraph.node? index = some ⟨next, .call target⟩ →
        helperHierarchy.untracked.isUntracked target.owner target.signature = false := by
  have huntracked : helperHierarchy.untracked.isUntracked (some "t/B") "access$000:()V" ≠
      false := by
    decide +kernel
  refine ⟨by decide +kernel, by decide +kernel, fun h => huntracked ?_, fun h => huntracked ?_⟩
  · exact h 0 ⟨some "t/B", "access$000:()V"⟩ rfl
  · exact h 0 (some 2) ⟨some "t/B", "access$000:()V"⟩ rfl

end CallNgrams
