import CallNgrams.Flow.Program
import CallNgrams.Proofs.Flow.Compile
import CallNgrams.Proofs.Flow.Linking
import CallNgrams.Proofs.Flow.Reach
import CallNgrams.Proofs.SignatureTable

/-!
# Merge points cut loops

Every loop that control can get into is entered somewhere, from outside or by entering the method,
and the cell where that happens has the last edge of the loop as a second one. So a loop contains a
merge point. Linking keeps the commands of the reachable cells, so the same holds of the nodes of a
compiled method, and control can go on at every one of them.
-/

namespace CallNgrams

open Relation

namespace CellArray

variable {array : CellArray} {points : List Nat} {i : Nat}

/-- A cell that control can get to from the entrance is among those that the walk visits, and its
edges lead to the cells that control can go to. -/
theorem Walked.mem_edgesOf {cells : List Nat} (h : array.Walked cells) (hi : array.Reachable i)
    {j : Nat} (hedge : array.Edge i j) : i ∈ cells ∧ j ∈ array.edgesOf i := by
  obtain ⟨out, hout⟩ := h.known hi
  rw [edgesOf_eq hout]
  exact ⟨h.mem.mpr hi, (mem_edges hout).mpr hedge⟩

/-- The entrance has two arrivals as soon as an edge leads back to it. -/
theorem two_le_count_entrance {cells : List Nat} {p : Nat} (hp : p ∈ cells)
    (hedge : array.entrance ∈ array.edgesOf p) :
    2 ≤ (array.arrivals cells).count array.entrance := by
  have hpos : 0 < (cells.flatMap array.edgesOf).count array.entrance :=
    List.count_pos_iff.mpr (List.mem_flatMap.mpr ⟨p, hp, hedge⟩)
  rw [arrivals, List.count_cons_self]
  omega

/-- A cell that edges of two cells lead to has two arrivals. -/
theorem two_le_count_of_ne {cells : List Nat} {p q : Nat} (hp : p ∈ cells) (hq : q ∈ cells)
    (hne : p ≠ q) (hpi : i ∈ array.edgesOf p) (hqi : i ∈ array.edgesOf q) :
    2 ≤ (array.arrivals cells).count i := by
  obtain ⟨before, after, rfl⟩ := List.append_of_mem hp
  have hothers : q ∈ before ++ after := by
    rw [List.mem_append] at hq ⊢
    exact hq.imp_right fun h => (List.mem_cons.mp h).resolve_left (Ne.symm hne)
  have hone : 0 < (array.edgesOf p).count i := List.count_pos_iff.mpr hpi
  have htwo : 0 < ((before ++ after).flatMap array.edgesOf).count i :=
    List.count_pos_iff.mpr (List.mem_flatMap.mpr ⟨q, hothers, hqi⟩)
  simp only [List.flatMap_append, List.count_append] at htwo
  have hle := List.count_le_count_cons (a := i) (b := array.entrance)
    (l := (before ++ p :: after).flatMap array.edgesOf)
  rw [arrivals]
  simp only [List.flatMap_append, List.flatMap_cons, List.count_append] at hle ⊢
  omega

/-- Control cannot get back to a reachable cell without passing a merge point. -/
theorem mergePoints_cut (h : array.mergePoints = .ok points) (hi : array.Reachable i) :
    ¬TransGen (fun p q => array.Edge p q ∧ q ∉ points) i i := by
  obtain ⟨-, cells, hcells, hpoints⟩ := mem_mergePoints h
  have hreach : ∀ {p q}, array.Reachable p →
      ReflTransGen (fun p q => array.Edge p q ∧ q ∉ points) p q → array.Reachable q := by
    intro p q hp hpq
    exact hp.trans (ReflTransGen.mono (fun _ _ hedge => hedge.1) _ _ hpq)
  -- Induction on the way to the loop: the last cell before it is the second source of an edge.
  induction hi with
  | refl =>
    intro hloop
    obtain ⟨p, hp, hedge, hnot⟩ := TransGen.tail'_iff.mp hloop
    obtain ⟨hmem, hout⟩ := hcells.mem_edgesOf (hreach .refl hp) hedge
    exact hnot ((hpoints _).mpr (two_le_count_entrance hmem hout))
  | @tail q i hq hqi ih =>
    intro hloop
    obtain ⟨p, hp, hedge, hnot⟩ := TransGen.tail'_iff.mp hloop
    by_cases hpq : p = q
    · subst p
      exact ih (TransGen.head' ⟨hqi, hnot⟩ hp)
    · obtain ⟨hpmem, hpout⟩ := hcells.mem_edgesOf (hreach (hq.tail hqi) hp) hedge
      obtain ⟨hqmem, hqout⟩ := hcells.mem_edgesOf hq hqi
      exact hnot ((hpoints _).mpr (two_le_count_of_ne hpmem hqmem hpq hpout hqout))

/-! ## Linking reachable cells -/

/-- The node of a cell whose destinations hold commands has the command of the cell and, where
control falls through, its fallthrough. -/
theorem exists_node_of_link {graph : MethodGraph} {command : Command}
    (h : array.link points = .ok graph) (hc : array.command? i = some command)
    (hdest : ∀ dest ∈ command.destinations, (array.command? dest).isSome)
    (hnext : command.Falls → ∃ next, array.next? i = some next ∧ (array.command? next).isSome) :
    ∃ next, graph.node? i = some ⟨next, command⟩ ∧ (command.Falls → next = array.next? i) := by
  obtain ⟨node, hnode, hbecomes⟩ := exists_node?_of_link h hc
  obtain rfl := hbecomes.command.eq_self fun dest hmem found hfound =>
    hfound.unique (.self (hdest dest hmem))
  refine ⟨node.next, hnode, fun hfalls => ?_⟩
  obtain ⟨next, hn, hsome⟩ := hnext hfalls
  have hrel := hbecomes.next
  rw [hn] at hrel ⊢
  generalize node.next = found at hrel
  cases hrel with
  | some hfirst => rw [hfirst.unique (.self hsome)]

/-- Control can go to every destination of a command. -/
theorem edge_of_destination {command : Command} (hc : array.command? i = some command) {dest : Nat}
    (hdest : dest ∈ command.destinations) : array.Edge i dest := by
  rw [edge_iff hc]
  cases command with
  | jump target =>
    obtain rfl := List.mem_singleton.mp hdest
    exact ⟨none, .jump⟩
  | branch targets => exact ⟨none, .choose hdest⟩
  | ret | raise | call _ => cases hdest

theorem edge_of_falls {command : Command} (hc : array.command? i = some command)
    (hfalls : command.Falls) {next : Nat} (hnext : array.next? i = some next) :
    array.Edge i next := by
  rw [edge_iff hc]
  cases command with
  | branch targets => exact ⟨none, .decline hnext⟩
  | call target => exact ⟨some ⟨i, target⟩, .call hnext⟩
  | ret | raise | jump _ => cases hfalls

/-- Where control can go on wherever it gets, the cells that it gets to have nodes with the same
commands and, where it falls through, the same fallthroughs. -/
theorem Reachable.exists_node {graph : MethodGraph} (hwalk : array.Walkable)
    (hlink : array.link points = .ok graph) (hi : array.Reachable i) :
    ∃ command next, array.command? i = some command ∧ graph.node? i = some ⟨next, command⟩ ∧
      (command.Falls → next = array.next? i ∧ next.isSome) := by
  have hsome : ∀ {dest}, array.Edge i dest → (array.command? dest).isSome := by
    intro dest hedge
    obtain ⟨out, hout⟩ := hwalk dest (hi.tail hedge)
    obtain ⟨command, hc, -⟩ := exists_command_of_edges hout
    rw [hc]
    rfl
  obtain ⟨out, hout⟩ := hwalk i hi
  obtain ⟨command, hc, hfalls⟩ := exists_command_of_edges hout
  obtain ⟨next, hnode, hnext⟩ := exists_node_of_link hlink hc
    (fun dest hdest => hsome (edge_of_destination hc hdest)) (fun h => by
      obtain ⟨next, hnext⟩ := Option.isSome_iff_exists.mp (hfalls h)
      exact ⟨next, hnext, hsome (edge_of_falls hc h hnext)⟩)
  exact ⟨command, next, hc, hnode, fun h => ⟨hnext h, hnext h ▸ hfalls h⟩⟩

theorem start_of_link {graph : MethodGraph} (h : array.link points = .ok graph)
    (hentrance : (array.command? array.entrance).isSome) : graph.start = array.entrance :=
  (firstCommand_start_of_link h).unique (.self hentrance)

end CellArray

/-- A command that does not fall through moves the same with every fallthrough. -/
theorem Command.moves_congr {command : Command} {index : Nat} {next next' : Option Nat}
    (h : command.Falls → next = next') {site : Option CallSite} {dest : Nat} :
    command.Moves index next site dest ↔ command.Moves index next' site dest := by
  cases command with
  | branch _ | call _ => rw [h trivial]
  | ret | raise | jump _ =>
    constructor
    all_goals
      intro hm
      cases hm
    all_goals exact .jump

namespace MethodGraph

variable {graph : MethodGraph} {i j : Nat}

/-- Control can go from one node to another. -/
def Edge (graph : MethodGraph) (i j : Nat) : Prop :=
  ∃ site, graph.Step i site j

/-- Control can get to a node from the start. -/
def Reachable (graph : MethodGraph) (i : Nat) : Prop :=
  ReflTransGen graph.Edge graph.start i

/-- Control can go from one node to another, which is not a merge point. -/
def Unmerged (graph : MethodGraph) (i j : Nat) : Prop :=
  graph.Edge i j ∧ graph.isMergePoint j = false

/-- Wherever control gets it finds a node, with a fallthrough if it can fall through, and it does
not get back to a node without passing a merge point. -/
structure Sound (graph : MethodGraph) : Prop where
  node {i : Nat} : graph.Reachable i →
    ∃ node, graph.node? i = some node ∧ (node.command.Falls → node.next.isSome)
  cut {i : Nat} : graph.Reachable i → ¬TransGen graph.Unmerged i i

/-- The graph is what the passes over some array of cells result in. -/
def Compiled (graph : MethodGraph) : Prop :=
  ∃ (array : CellArray) (removeRepetition : Bool), array.toGraph removeRepetition = .ok graph

/-- The edges of a node are the moves of its command. -/
theorem edge_iff {node : Node} (h : graph.node? i = some node) :
    graph.Edge i j ↔ ∃ site, node.command.Moves i node.next site j := by
  constructor
  · rintro ⟨site, node', hnode, hm⟩
    obtain rfl := Option.some.inj (h.symm.trans hnode)
    exact ⟨site, hm⟩
  · rintro ⟨site, hm⟩
    exact ⟨site, node, h, hm⟩

/-- A graph that is linked from checked cells with their merge points is sound. -/
theorem sound_of_link {array : CellArray} {points : List Nat}
    (hpoints : array.mergePoints = .ok points) (hlink : array.link points = .ok graph) :
    graph.Sound := by
  have hwalk : array.Walkable := CellArray.exists_mergePoints_iff.mp ⟨points, hpoints⟩
  have hedge : ∀ {i j}, array.Reachable i → graph.Edge i j → array.Edge i j := by
    intro i j hi
    obtain ⟨command, next, hc, hnode, hfalls⟩ := hi.exists_node hwalk hlink
    rw [edge_iff hnode, CellArray.edge_iff hc]
    rintro ⟨site, hm⟩
    exact ⟨site, (Command.moves_congr fun h => (hfalls h).1).mp hm⟩
  have hstart : graph.start = array.entrance := by
    obtain ⟨command, -, hc, -⟩ := CellArray.Reachable.exists_node hwalk hlink .refl
    exact CellArray.start_of_link hlink (by rw [hc]; rfl)
  have hreach : ∀ {i}, graph.Reachable i → array.Reachable i := by
    intro i hi
    induction hi with
    | refl =>
      rw [hstart]
      exact .refl
    | tail _ h ih => exact ih.tail (hedge ih h)
  constructor
  · intro i hi
    obtain ⟨command, next, -, hnode, hfalls⟩ := (hreach hi).exists_node hwalk hlink
    exact ⟨_, hnode, fun h => (hfalls h).2⟩
  · intro i hi hloop
    have hcut : ∀ {p q}, array.Reachable p → graph.Unmerged p q →
        array.Edge p q ∧ q ∉ points := by
      rintro p q hp ⟨h, hnot⟩
      refine ⟨hedge hp h, fun hq => ?_⟩
      rw [isMergePoint, CellArray.mergePoints_of_link hlink,
        List.contains_iff_mem.mpr hq] at hnot
      cases hnot
    -- Every node of the loop is reachable, so that its edges are edges of the cells.
    have hlift : ∀ {j}, TransGen graph.Unmerged i j → array.Reachable j ∧
        TransGen (fun p q => array.Edge p q ∧ q ∉ points) i j := by
      intro j hj
      induction hj with
      | single h =>
        have hstep := hcut (hreach hi) h
        exact ⟨(hreach hi).tail hstep.1, .single hstep⟩
      | tail _ h ih =>
        have hstep := hcut ih.1 h
        exact ⟨ih.1.tail hstep.1, ih.2.tail hstep⟩
    exact CellArray.mergePoints_cut hpoints (hreach hi) (hlift hloop).2

theorem compiled_of_compile {body : Body} {hierarchy : Option ClassHierarchy}
    {removeRepetition : Bool} {method : MethodKey}
    (h : body.compile hierarchy removeRepetition method = .ok graph) : graph.Compiled := by
  obtain ⟨array, -, h⟩ := exists_of_bind_eq_ok h
  exact ⟨array, removeRepetition, h⟩

/-- Compiled graphs are sound. -/
theorem Compiled.sound (h : graph.Compiled) : graph.Sound := by
  obtain ⟨array, removeRepetition, h⟩ := h
  obtain ⟨collapsed, -, h⟩ := exists_of_bind_eq_ok h
  obtain ⟨-, -, h⟩ := exists_of_bind_eq_ok h
  obtain ⟨points, hpoints, hlink⟩ := exists_of_bind_eq_ok h
  exact sound_of_link hpoints hlink

end MethodGraph

namespace GraphTable

variable {graphs : GraphTable}

/-- Every graph of a table is compiled. -/
def Compiled (graphs : GraphTable) : Prop :=
  ∀ method graph, graphs.get? method = some graph → graph.Compiled

theorem compiled_empty : Compiled SignatureTable.empty := by
  intro method graph h
  rw [SignatureTable.get?_empty] at h
  cases h

/-- A table stays compiled if a compiled graph is inserted. -/
theorem Compiled.insert (h : graphs.Compiled) {graph : MethodGraph} (hgraph : graph.Compiled)
    (method : MethodKey) : Compiled (SignatureTable.insert graphs method graph) := by
  intro other found hfound
  rw [SignatureTable.get?_insert] at hfound
  split at hfound
  · obtain rfl := Option.some.inj hfound
    exact hgraph
  · exact h other found hfound

/-- Compiling the methods of a program makes a table of compiled graphs. -/
theorem compiled_of_compileAll {hierarchy : Option ClassHierarchy} {removeRepetition : Bool}
    {bodies : List (MethodKey × Body)}
    (h : compileAll hierarchy removeRepetition bodies = .ok graphs) : graphs.Compiled := by
  refine foldlM_keeps (P := Compiled) (fun entry _ table table' htable hround => ?_)
    compiled_empty h
  rw [compileInto] at hround
  split at hround
  case h_1 graph hgraph =>
    obtain rfl := Except.ok.inj hround
    exact htable.insert (MethodGraph.compiled_of_compile hgraph) entry.1
  case h_2 =>
    obtain rfl := Except.ok.inj hround
    exact htable
  case h_3 => cases hround

end GraphTable

end CallNgrams
