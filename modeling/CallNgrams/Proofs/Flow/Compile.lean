import CallNgrams.Proofs.Flow.Decode
import CallNgrams.Proofs.Flow.Linking
import CallNgrams.Proofs.Flow.Merge
import CallNgrams.Proofs.Flow.Repetition

/-!
# Compiled methods

Once all destinations hold commands, linking copies the cells, so a graph takes the steps of the
cells that it was linked from. Together with what the passes keep, a compiled method makes no call
sequence that its body does not make, up to dropped calls.
-/

namespace CallNgrams

namespace CellArray

variable {array : CellArray} {i : Nat}

/-- Everything that linking has to resolve holds a command in resolved cells. -/
theorem Resolved.isSome_of_requires (h : array.Resolved) {dest : Nat}
    (hdest : array.Requires dest) : (array.command? dest).isSome := by
  rcases hdest with rfl | ⟨i, command, hcommand, hnext | hdest⟩
  · exact h.entrance
  · exact h.next hnext
  · exact h.destination hcommand hdest

/-- Resolved cells can be linked. -/
theorem Resolved.exists_link (h : array.Resolved) (mergePoints : List Nat) :
    ∃ graph, array.link mergePoints = .ok graph :=
  exists_link_iff.mpr fun dest hdest =>
    ⟨dest, Nat.le_refl dest, h.isSome_of_requires hdest⟩

/-- Linking resolved cells keeps them as they are. -/
theorem Resolved.node?_of_link (h : array.Resolved) {mergePoints : List Nat} {graph : MethodGraph}
    (hlink : array.link mergePoints = .ok graph) (i : Nat) :
    graph.node? i = (array.command? i).map fun command => ⟨array.next? i, command⟩ := by
  have hself : ∀ {dest found}, (array.command? dest).isSome → array.FirstCommand dest found →
      found = dest := fun hsome hfound => hfound.unique (.self hsome)
  have hbecomes := becomesNode_of_link hlink i
  cases hcommand : array.command? i with
  | none =>
    rw [hcommand] at hbecomes
    generalize graph.node? i = node at hbecomes
    cases hbecomes
    rfl
  | some command =>
    obtain ⟨⟨next, linked⟩, hnode, hreplaces, hrel⟩ := exists_node?_of_link hlink hcommand
    obtain rfl := hreplaces.eq_self fun dest hdest found =>
      hself (h.destination hcommand hdest)
    have hnext : next = array.next? i := by
      cases hread : array.next? i with
      | none =>
        rw [hread] at hrel
        cases hrel
        rfl
      | some dest =>
        rw [hread] at hrel
        cases hrel with
        | some hfound => rw [hself (h.next hread) hfound]
    rw [hnode, hnext]
    rfl

/-- A graph takes the steps of the resolved cells that it was linked from. -/
theorem Resolved.step_of_link (h : array.Resolved) {mergePoints : List Nat} {graph : MethodGraph}
    (hlink : array.link mergePoints = .ok graph) :
    graph.start = array.entrance ∧ graph.Step = array.Step := by
  refine ⟨(firstCommand_start_of_link hlink).unique (.self h.entrance), ?_⟩
  funext index site dest
  refine propext ?_
  simp [MethodGraph.Step, h.node?_of_link hlink, Step]

/-- The cells that are linked come from the collapsed ones by merging branches and, if asked for, by
removing repetitions. -/
theorem toGraph_eq_ok {removeRepetition : Bool} {graph : MethodGraph}
    (h : array.toGraph removeRepetition = .ok graph) :
    ∃ collapsed mergePoints, array.collapseJumps = .ok collapsed ∧
      (if removeRepetition then collapsed.mergeBranches.removeRepetitions
        else collapsed.mergeBranches).link mergePoints = .ok graph := by
  obtain ⟨collapsed, hcollapse, h⟩ := exists_of_bind_eq_ok h
  obtain ⟨-, -, h⟩ := exists_of_bind_eq_ok h
  obtain ⟨mergePoints, -, h⟩ := exists_of_bind_eq_ok h
  exact ⟨collapsed, mergePoints, hcollapse, h⟩

end CellArray

/-- A compiled method makes only call sequences of its body. If repetitions are removed, calls may
be missing from them. -/
theorem Body.compile_makes {hierarchy : Option ClassHierarchy} {removeRepetition : Bool}
    {method : MethodKey} {body : Body} {graph : MethodGraph}
    (h : body.compile hierarchy removeRepetition method = .ok graph) {calls : List CallSite}
    (hm : graph.Makes calls) :
    (removeRepetition = false → body.Makes hierarchy method.owner calls) ∧
      (removeRepetition = true →
        ∃ all, body.Makes hierarchy method.owner all ∧ calls.Sublist all) := by
  obtain ⟨array, hbody, h⟩ := exists_of_bind_eq_ok h
  obtain ⟨collapsed, mergePoints, hcollapse, hlink⟩ := CellArray.toGraph_eq_ok h
  obtain ⟨collapsed', hrun, hres, hsame⟩ := CellArray.exists_collapseJumps_of_ofBody hbody
  obtain rfl := Except.ok.inj (hrun.symm.trans hcollapse)
  obtain ⟨hmerged, hrefines⟩ := hres.mergeBranches
  have hbefore : ∀ calls, collapsed'.mergeBranches.Makes calls →
      body.Makes hierarchy method.owner calls :=
    fun calls hm => (hsame.emits calls).mpr (hrefines.makes hm)
  constructor
  · rintro rfl
    obtain ⟨hstart, hstep⟩ := hmerged.step_of_link hlink
    rw [MethodGraph.Makes, hstart, hstep] at hm
    exact hbefore calls hm
  · rintro rfl
    obtain ⟨-, -, hresolved⟩ := collapsed'.mergeBranches.exists_drops_removeRepetitions
    obtain ⟨hstart, hstep⟩ := (hresolved hmerged).step_of_link hlink
    rw [MethodGraph.Makes, hstart, hstep] at hm
    obtain ⟨all, hall, rfl⟩ := (CellArray.makes_removeRepetitions _ calls).mp hm
    exact ⟨all, hbefore all hall, List.filter_sublist⟩

/-- Two branches in a row, then a call that is repeated and one that is not. -/
def sampleBody : Body :=
  ⟨#[some ⟨"ifeq", ["4"], none⟩, some ⟨"ifne", ["5"], none⟩,
    some ⟨"invokestatic", [], some "// Method t/A.a:()V"⟩,
    some ⟨"invokestatic", [], some "// Method t/A.a:()V"⟩,
    some ⟨"invokestatic", [], some "// Method t/A.b:()V"⟩]⟩

/-- The graph of `sampleBody` without repetitions. -/
def sampleGraph : MethodGraph where
  nodes := #[some ⟨some 2, .branch [4, 5]⟩, some ⟨some 2, .branch [5]⟩,
    some ⟨some 4, .call ⟨some "t/A", "a:()V"⟩⟩, some ⟨some 4, .call ⟨some "t/A", "a:()V"⟩⟩,
    some ⟨some 5, .call ⟨some "t/A", "b:()V"⟩⟩, some ⟨none, .ret⟩]
  start := 0
  mergePoints := [4, 5]

/-- The graph of `sampleBody` calls each target once, and its body makes these calls among
others. -/
theorem Body.compile_makes_sample :
    sampleBody.compile none true ⟨"t/A", "m:()V"⟩ = .ok sampleGraph ∧
      sampleGraph.Makes [⟨2, ⟨some "t/A", "a:()V"⟩⟩, ⟨4, ⟨some "t/A", "b:()V"⟩⟩] ∧
      ∃ all, sampleBody.Makes none "t/A" all ∧
        [⟨2, ⟨some "t/A", "a:()V"⟩⟩, ⟨4, ⟨some "t/A", "b:()V"⟩⟩].Sublist all := by
  have hcompile : sampleBody.compile none true ⟨"t/A", "m:()V"⟩ = .ok sampleGraph := by
    decide +kernel
  have hmakes : sampleGraph.Makes
      [⟨2, ⟨some "t/A", "a:()V"⟩⟩, ⟨4, ⟨some "t/A", "b:()V"⟩⟩] := by
    refine ⟨5, .silent (q := 2) ⟨_, rfl, .decline rfl⟩ ?_⟩
    exact .call (q := 4) ⟨_, rfl, .call rfl⟩ (.call ⟨_, rfl, .call rfl⟩ (.stop 5))
  exact ⟨hcompile, hmakes, (Body.compile_makes hcompile hmakes).2 rfl⟩

end CallNgrams
