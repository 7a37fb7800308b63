import CallNgrams.Flow.Program
import CallNgrams.Proofs.Flow.Compile
import CallNgrams.Proofs.Flow.Reach
import CallNgrams.Proofs.SignatureTable
import CallNgrams.Proofs.Text

/-!
# Bodies that can be compiled

A body can be compiled exactly if each of its instructions can be decoded: jumps and branches have
one operand, which is an offset of the method, cases of a switch end with such offsets, and calls
name a target whose parameters can be counted where its class is narrowed. The passes over the cells
never fail, because they keep all destinations resolved. So an error names the first instruction
that cannot be decoded, and it concerns no other method of a program.
-/

namespace CallNgrams

/-! ## Instructions that can be decoded -/

/-- A text is, without the white space around it, an offset of a method of the given size, or the
end behind its last one. -/
def Flow.IsOffset (size : Nat) (text : List Char) : Prop :=
  ∃ offset, Text.unsigned? (Text.trim text) = some offset ∧ offset ≤ size

/-- An instruction can be decoded in a method of the given class and size. -/
structure Instruction.Decodable (hierarchy : Option ClassHierarchy) (context : String) (size : Nat)
    (instruction : Instruction) : Prop where
  jump : Mnemonic.kind instruction.opcode = .jump ∨ Mnemonic.kind instruction.opcode = .branch →
    ∃ operand, instruction.operands = [operand] ∧ Flow.IsOffset size operand.toList
  switch : Mnemonic.kind instruction.opcode = .switch → ∀ operand ∈ instruction.operands,
    ∃ text, Text.EndsBehind ':' operand.toList text ∧ Flow.IsOffset size text
  call {kind : CallKind} : Mnemonic.kind instruction.opcode = .call kind →
    ∃ target, callTarget? context (instruction.comment.getD "") = some target ∧
      (hierarchy.isSome → kind.isDynamic = true →
        ∃ count, Signature.parameterCount target.signature = .ok count)

namespace Flow

variable {hierarchy : Option ClassHierarchy} {context comment : String} {body : Body}
  {size index : Nat} {instruction : Instruction} {kind : CallKind} {annotated : CallTarget}

/-- A target is read if its text is an offset of the body. -/
theorem exists_target_iff {text : String} :
    (∃ found, target size text = .ok found) ↔ IsOffset size text.toList := by
  unfold target IsOffset
  cases Text.unsigned? (Text.trim text.toList) with
  | none => simp
  | some offset =>
    by_cases hle : offset ≤ size
    · simp [hle, Nat.not_lt.mpr hle]
    · simp [hle, Nat.lt_of_not_le hle]

/-- A jump needs one operand that is an offset. -/
theorem exists_onlyTarget_iff : (∃ found, onlyTarget size instruction = .ok found) ↔
    ∃ operand, instruction.operands = [operand] ∧ IsOffset size operand.toList := by
  unfold onlyTarget
  split
  case h_1 operand hoperands =>
    rw [exists_target_iff, hoperands]
    simp
  case h_2 hnot => simpa using fun operand heq _ => hnot operand heq

/-- The target text of a case is what follows its last colon. -/
theorem caseTarget_eq_iff {operand : String} {text : List Char} :
    Text.EndsBehind ':' operand.toList text ↔ (caseTarget operand).toList = text := by
  rw [Text.endsBehind_iff, caseTarget]
  cases Text.cutLast ':' operand.toList with
  | none => rfl
  | some parts => rw [Option.elim_some, String.toList_ofList]

/-- Every case of a choice has to end with an offset. -/
theorem exists_caseTargets_iff : (∃ found, caseTargets size instruction = .ok found) ↔
    ∀ operand ∈ instruction.operands,
      ∃ text, Text.EndsBehind ':' operand.toList text ∧ IsOffset size text := by
  have hcase : ∀ operand : String, (∃ text, Text.EndsBehind ':' operand.toList text ∧
      IsOffset size text) ↔ ∃ found, target size (caseTarget operand) = .ok found := by
    intro operand
    simp only [caseTarget_eq_iff, exists_eq_left', exists_target_iff]
  simp only [hcase]
  exact exists_mapM_ok_iff

/-- A call is kept or dropped unless its class is narrowed and its parameters cannot be counted. -/
theorem exists_keptTarget_iff :
    (∃ kept, keptTarget hierarchy body index kind annotated = .ok kept) ↔
      (hierarchy.isSome → kind.isDynamic = true →
        ∃ count, Signature.parameterCount annotated.signature = .ok count) := by
  unfold keptTarget
  cases kind.isDynamic with
  | false => simp
  | true =>
    cases hierarchy with
    | none => simp
    | some known =>
      cases Signature.parameterCount annotated.signature with
      | error fault => simp
      | ok count =>
        simp only [Bool.not_true, Bool.false_eq_true, if_false]
        split <;> simp

/-- A call needs a target and, where instances decide what is called, a number of parameters. -/
theorem exists_ofCall_iff : (∃ flow, ofCall hierarchy context body index kind comment = .ok flow) ↔
    ∃ target, callTarget? context comment = some target ∧
      (hierarchy.isSome → kind.isDynamic = true →
        ∃ count, Signature.parameterCount target.signature = .ok count) := by
  unfold ofCall
  cases callTarget? context comment with
  | none => simp
  | some annotated =>
    simp only [Option.some.injEq, exists_eq_left',
      ← @exists_keptTarget_iff hierarchy body index kind annotated]
    cases keptTarget hierarchy body index kind annotated with
    | error fault => simp [bind, Except.bind]
    | ok kept => cases kept <;> simp [bind, Except.bind]

/-- The meaning of an instruction is known exactly if it can be decoded. -/
theorem exists_ofInstruction_iff :
    (∃ flow, ofInstruction hierarchy context body index instruction = .ok flow) ↔
      instruction.Decodable hierarchy context body.size := by
  unfold ofInstruction
  cases hkind : Mnemonic.kind instruction.opcode with
  | jump =>
    rw [exists_map_ok_iff, exists_onlyTarget_iff]
    exact ⟨fun h => ⟨fun _ => h, by simp [hkind], by simp [hkind]⟩, fun h => h.jump (.inl hkind)⟩
  | branch =>
    rw [exists_map_ok_iff, exists_onlyTarget_iff]
    exact ⟨fun h => ⟨fun _ => h, by simp [hkind], by simp [hkind]⟩, fun h => h.jump (.inr hkind)⟩
  | switch =>
    rw [exists_map_ok_iff, exists_caseTargets_iff]
    exact ⟨fun h => ⟨by simp [hkind], fun _ => h, by simp [hkind]⟩, fun h => h.switch hkind⟩
  | call kind =>
    rw [exists_ofCall_iff]
    refine ⟨fun h => ⟨by simp [hkind], by simp [hkind], fun hcall => ?_⟩, fun h => h.call hkind⟩
    obtain rfl := InstructionKind.call.inj (hkind.symm.trans hcall)
    exact h
  | ret | raise | plain =>
    exact ⟨fun _ => ⟨by simp [hkind], by simp [hkind], by simp [hkind]⟩, fun _ => ⟨_, rfl⟩⟩

end Flow

namespace Body

variable {hierarchy : Option ClassHierarchy} {context : String} {method : MethodKey} {body : Body}
  {removeRepetition : Bool}

/-- Every instruction of a body can be decoded. -/
def Decodable (hierarchy : Option ClassHierarchy) (context : String) (body : Body) : Prop :=
  ∀ index instruction, body.get? index = some instruction →
    instruction.Decodable hierarchy context body.size

/-- The instruction at an offset cannot be decoded, but all earlier ones can. -/
structure FirstUndecodable (hierarchy : Option ClassHierarchy) (context : String) (body : Body)
    (index : Nat) : Prop where
  fails : ∃ instruction, body.get? index = some instruction ∧
    ¬instruction.Decodable hierarchy context body.size
  earlier : ∀ k < index, ∀ instruction, body.get? k = some instruction →
    instruction.Decodable hierarchy context body.size

theorem lt_size_of_get? {index : Nat} {instruction : Instruction}
    (h : body.get? index = some instruction) : index < body.size := by
  refine Nat.lt_of_not_le fun hle => ?_
  rw [get?, Array.getElem?_eq_none hle] at h
  cases h

/-- An offset can be decoded if it has no instruction, or one that can be decoded. -/
theorem exists_decodeAt_iff {index : Nat} :
    (∃ entry, CellArray.decodeAt hierarchy method body index = .ok entry) ↔
      ∀ instruction, body.get? index = some instruction →
        instruction.Decodable hierarchy method.owner body.size := by
  unfold CellArray.decodeAt
  cases body.get? index with
  | none => simp
  | some instruction =>
    simp only [Option.some.injEq, forall_eq',
      ← @Flow.exists_ofInstruction_iff hierarchy method.owner body index]
    cases Flow.ofInstruction hierarchy method.owner body index instruction <;> simp

/-- Decoding an offset fails with an error that names it. -/
theorem decodeAt_eq_error {index : Nat} {e : Error}
    (h : CellArray.decodeAt hierarchy method body index = .error e) :
    ∃ fault, e = .malformed ⟨method, index⟩ fault := by
  unfold CellArray.decodeAt at h
  split at h
  · cases h
  · split at h
    case h_1 fault _ => exact ⟨fault, (Except.error.inj h).symm⟩
    case h_2 => cases h

/-- The cells of a body exist exactly if it can be decoded. -/
theorem exists_ofBody_iff : (∃ array, CellArray.ofBody hierarchy method body = .ok array) ↔
    body.Decodable hierarchy method.owner := by
  have hcells : (∃ array, CellArray.ofBody hierarchy method body = .ok array) ↔
      ∃ found, (List.range body.size).mapM (CellArray.decodeAt hierarchy method body) =
        .ok found := by
    unfold CellArray.ofBody
    cases (List.range body.size).mapM (CellArray.decodeAt hierarchy method body) <;>
      simp [bind, Except.bind]
  rw [hcells, exists_mapM_ok_iff]
  simp only [exists_decodeAt_iff, List.mem_range]
  exact ⟨fun h index instruction hget => h index (lt_size_of_get? hget) instruction hget,
    fun h index _ instruction hget => h index instruction hget⟩

/-- If the cells of a body do not exist, the error names its first undecodable instruction. -/
theorem ofBody_eq_error {e : Error} (h : CellArray.ofBody hierarchy method body = .error e) :
    ∃ index fault, e = .malformed ⟨method, index⟩ fault ∧
      body.FirstUndecodable hierarchy method.owner index := by
  unfold CellArray.ofBody at h
  cases hmap : (List.range body.size).mapM (CellArray.decodeAt hierarchy method body) with
  | ok found =>
    rw [hmap] at h
    cases h
  | error e' =>
    rw [hmap] at h
    obtain rfl : e' = e := Except.error.inj h
    obtain ⟨index, -, hfails, hbefore⟩ := exists_of_mapM_range_eq_error hmap
    obtain ⟨fault, rfl⟩ := decodeAt_eq_error hfails
    refine ⟨index, fault, rfl, ?_, fun k hk => exists_decodeAt_iff.mp (hbefore k hk)⟩
    have hnot : ¬∃ entry, CellArray.decodeAt hierarchy method body index = .ok entry := by
      rintro ⟨entry, hentry⟩
      rw [hfails] at hentry
      cases hentry
    rw [exists_decodeAt_iff] at hnot
    simpa using hnot

end Body

/-! ## Passes that do not fail -/

namespace CellArray

variable {array : CellArray} {removeRepetition : Bool}

/-- Cells with collapsed and resolved jumps have a graph. -/
theorem Resolved.exists_toGraph {collapsed : CellArray} (hrun : array.collapseJumps = .ok collapsed)
    (h : collapsed.Resolved) : ∃ graph, array.toGraph removeRepetition = .ok graph := by
  have hcheck : collapsed.checkReachable = .ok () := checkReachable_eq_ok_iff.mpr h.walkable
  have hfinal : (if removeRepetition then collapsed.mergeBranches.removeRepetitions
      else collapsed.mergeBranches).Resolved := by
    have hmerged := h.mergeBranches.1
    split
    · obtain ⟨-, -, hresolved⟩ := collapsed.mergeBranches.exists_drops_removeRepetitions
      exact hresolved hmerged
    · exact hmerged
  obtain ⟨points, hpoints⟩ := exists_mergePoints_iff.mpr hfinal.walkable
  obtain ⟨graph, hlink⟩ := hfinal.exists_link points
  refine ⟨graph, ?_⟩
  simp only [toGraph, hrun, hcheck, bind, Except.bind, hpoints, hlink]

end CellArray

namespace Body

variable {hierarchy : Option ClassHierarchy} {method : MethodKey} {body : Body}
  {removeRepetition : Bool}

/-- A body compiles exactly if it can be decoded. -/
theorem exists_compile_iff :
    (∃ graph, body.compile hierarchy removeRepetition method = .ok graph) ↔
      body.Decodable hierarchy method.owner := by
  rw [← exists_ofBody_iff]
  constructor
  · rintro ⟨graph, hcompile⟩
    obtain ⟨array, harray, -⟩ := exists_of_bind_eq_ok hcompile
    exact ⟨array, harray⟩
  · rintro ⟨array, harray⟩
    obtain ⟨collapsed, hrun, hresolved, -⟩ := CellArray.exists_collapseJumps_of_ofBody harray
    rw [compile, harray]
    exact hresolved.exists_toGraph hrun

/-- A body that does not compile has an undecodable instruction, and the error names the first. -/
theorem compile_eq_error {e : Error}
    (h : body.compile hierarchy removeRepetition method = .error e) :
    ∃ index fault, e = .malformed ⟨method, index⟩ fault ∧
      body.FirstUndecodable hierarchy method.owner index := by
  cases harray : CellArray.ofBody hierarchy method body with
  | error e' =>
    rw [compile, harray] at h
    obtain rfl : e' = e := Except.error.inj h
    exact ofBody_eq_error harray
  | ok array =>
    obtain ⟨graph, hgraph⟩ := exists_compile_iff.mpr (exists_ofBody_iff.mp ⟨array, harray⟩)
    rw [hgraph] at h
    cases h

end Body

/-! ## Programs -/

namespace GraphTable

variable {hierarchy : Option ClassHierarchy} {removeRepetition : Bool} {graphs : GraphTable}

/-- A method whose body does not compile leaves a table as it is. -/
theorem compileInto_of_error {method : MethodKey} {body : Body} {e : Error}
    (h : body.compile hierarchy removeRepetition method = .error e) :
    compileInto hierarchy removeRepetition graphs (method, body) = .ok graphs := by
  obtain ⟨index, fault, rfl, -⟩ := Body.compile_eq_error h
  rw [compileInto, h]

/-- Compiling methods that a table does not hold yet, each once, adds the graphs of those that
compile. -/
theorem exists_foldlM_compileInto {bodies : List (MethodKey × Body)}
    (hnew : ∀ entry ∈ bodies, graphs.get? entry.1 = none) (hnodup : (bodies.map Prod.fst).Nodup) :
    ∃ graphs', bodies.foldlM (compileInto hierarchy removeRepetition) graphs = .ok graphs' ∧
      ∀ method graph, graphs'.get? method = some graph ↔ graphs.get? method = some graph ∨
        ∃ body, (method, body) ∈ bodies ∧
          body.compile hierarchy removeRepetition method = .ok graph := by
  induction bodies generalizing graphs with
  | nil => exact ⟨graphs, rfl, by simp⟩
  | cons entry bodies ih =>
    obtain ⟨first, body⟩ := entry
    obtain ⟨hfirst, hnodup⟩ := List.nodup_cons.mp hnodup
    have hother : ∀ {body'}, (first, body') ∉ bodies := fun hmem =>
      hfirst (List.mem_map.mpr ⟨_, hmem, rfl⟩)
    have hrest : ∀ entry ∈ bodies, graphs.get? entry.1 = none := fun entry hmem =>
      hnew entry (List.mem_cons_of_mem _ hmem)
    cases hcompile : body.compile hierarchy removeRepetition first with
    | error e =>
      obtain ⟨graphs', hrun, hget⟩ := ih hrest hnodup
      refine ⟨graphs', ?_, fun method graph => ?_⟩
      · rw [List.foldlM_cons, compileInto_of_error hcompile]
        exact hrun
      · rw [hget]
        refine or_congr_right (exists_congr fun body' => and_congr_left fun hok => ?_)
        refine ⟨List.mem_cons_of_mem _, fun hmem => (List.mem_cons.mp hmem).resolve_left ?_⟩
        rintro heq
        obtain ⟨rfl, rfl⟩ := Prod.mk.inj heq
        rw [hcompile] at hok
        cases hok
    | ok compiled =>
      have hinto : compileInto hierarchy removeRepetition graphs (first, body) =
          .ok (SignatureTable.insert graphs first compiled) := by
        rw [compileInto, hcompile]
      have hfresh : ∀ entry ∈ bodies,
          (SignatureTable.insert graphs first compiled).get? entry.1 = none := by
        intro entry hmem
        rw [SignatureTable.get?_insert, if_neg, hrest entry hmem]
        rintro rfl
        exact hother hmem
      obtain ⟨graphs', hrun, hget⟩ := ih hfresh hnodup
      refine ⟨graphs', ?_, fun method graph => ?_⟩
      · rw [List.foldlM_cons, hinto]
        exact hrun
      · rw [hget, SignatureTable.get?_insert]
        by_cases hmethod : first = method
        · subst method
          simp [hother, hnew (first, body) List.mem_cons_self, hcompile]
        · simp [hmethod, Ne.symm hmethod]

end GraphTable

/-- A body compiles exactly if all of its instructions can be decoded, and otherwise the error names
the first one that cannot. Methods do not disturb each other: compiling a list of different ones
succeeds, and the table holds the graphs of exactly those that compile by themselves. -/
theorem compilation_exact (hierarchy : Option ClassHierarchy) (removeRepetition : Bool) :
    (∀ (method : MethodKey) (body : Body),
      ((∃ graph, body.compile hierarchy removeRepetition method = .ok graph) ↔
        body.Decodable hierarchy method.owner) ∧
      ∀ e, body.compile hierarchy removeRepetition method = .error e →
        ∃ index fault, e = .malformed ⟨method, index⟩ fault ∧
          body.FirstUndecodable hierarchy method.owner index) ∧
    ∀ bodies : List (MethodKey × Body), (bodies.map Prod.fst).Nodup →
      ∃ graphs, GraphTable.compileAll hierarchy removeRepetition bodies = .ok graphs ∧
        ∀ method graph, graphs.get? method = some graph ↔ ∃ body, (method, body) ∈ bodies ∧
          body.compile hierarchy removeRepetition method = .ok graph := by
  refine ⟨fun method body => ⟨Body.exists_compile_iff, fun e => Body.compile_eq_error⟩, ?_⟩
  intro bodies hnodup
  obtain ⟨graphs, hrun, hget⟩ := GraphTable.exists_foldlM_compileInto
    (fun entry _ => SignatureTable.get?_empty) hnodup
  refine ⟨graphs, hrun, fun method graph => ?_⟩
  rw [hget, SignatureTable.get?_empty]
  simp

/-- A dynamic call of a signature without parameters, and a jump out of the method behind it. -/
def strayBody : Body :=
  ⟨#[none, some ⟨"invokevirtual", [], some "// Method t/B.f"⟩, some ⟨"goto", ["9"], none⟩]⟩

/-- A method with `strayBody` beside one with `sampleBody`. -/
def strayProgram : List (MethodKey × Body) :=
  [(⟨"t/A", "stray:()V"⟩, strayBody), (⟨"t/A", "m:()V"⟩, sampleBody)]

/-- Where the classes of calls are narrowed, the call in `strayBody` is the first instruction that
cannot be decoded. The method beside it gets its own graph. -/
theorem compilation_exact_stray :
    (strayProgram.map Prod.fst).Nodup ∧
    strayBody.FirstUndecodable (some (.ofTables ∅ ∅ libraryHelperCalls)) "t/A" 1 ∧
    ¬strayBody.Decodable none "t/A" ∧
    ∃ graphs, GraphTable.compileAll (some (.ofTables ∅ ∅ libraryHelperCalls)) true strayProgram =
        .ok graphs ∧
      graphs.get? ⟨"t/A", "stray:()V"⟩ = none ∧
      graphs.get? ⟨"t/A", "m:()V"⟩ = some sampleGraph := by
  have hstray : strayBody.compile (some (.ofTables ∅ ∅ libraryHelperCalls)) true
      ⟨"t/A", "stray:()V"⟩ = .error (.malformed ⟨⟨"t/A", "stray:()V"⟩, 1⟩
        (.badSignature "f" .missingParameters)) := by
    decide +kernel
  have hplain : strayBody.compile none true ⟨"t/A", "stray:()V"⟩ =
      .error (.malformed ⟨⟨"t/A", "stray:()V"⟩, 2⟩ (.targetPastEnd 9)) := by
    decide +kernel
  have hsample : sampleBody.compile (some (.ofTables ∅ ∅ libraryHelperCalls)) true
      ⟨"t/A", "m:()V"⟩ = .ok sampleGraph := by
    decide +kernel
  have hnarrowed := compilation_exact (some (.ofTables ∅ ∅ libraryHelperCalls)) true
  obtain ⟨index, fault, heq, hfirst⟩ := (hnarrowed.1 _ strayBody).2 _ hstray
  obtain rfl : 1 = index := congrArg ProgramPoint.index (Error.malformed.inj heq).1
  have hnodup : (strayProgram.map Prod.fst).Nodup := by decide
  obtain ⟨graphs, hgraphs, hget⟩ := hnarrowed.2 _ hnodup
  refine ⟨hnodup, hfirst, fun hdecodable => ?_, graphs, hgraphs, ?_, ?_⟩
  · obtain ⟨graph, hgraph⟩ :=
      ((compilation_exact none true).1 ⟨"t/A", "stray:()V"⟩ strayBody).1.mpr hdecodable
    rw [hplain] at hgraph
    cases hgraph
  · rw [Option.eq_none_iff_forall_ne_some]
    intro graph hgraph
    obtain ⟨body, hmem, hok⟩ := (hget _ graph).mp hgraph
    obtain rfl : body = strayBody := by simpa [strayProgram] using hmem
    rw [hstray] at hok
    cases hok
  · exact (hget _ _).mpr ⟨sampleBody, by simp [strayProgram], hsample⟩

end CallNgrams
