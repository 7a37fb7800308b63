import Mathlib.Data.List.Forall2
import CallNgrams.Proofs.Flow.Cell
import CallNgrams.Proofs.Loop

/-!
# Linking cells

Linking gives handles to the cells that hold a command, in the order of their indices, and replaces
every destination of these cells by the handle of the first command at or after it. A destination
without such a command is the only reason for which it fails. The table of handles and the list of
nodes are inverse to each other, so a linked method takes the same steps whether its nodes are
addressed by handle or by index.
-/

namespace CallNgrams

/-- If mapping over a list succeeds, the result has the values of the function in their order. -/
theorem forall₂_of_mapM {α β ε : Type} {f : α → Except ε β} {xs : List α} {ys : List β}
    (h : xs.mapM f = .ok ys) : List.Forall₂ (fun x y => f x = .ok y) xs ys := by
  induction xs generalizing ys with
  | nil =>
    obtain rfl : [] = ys := Except.ok.inj h
    exact .nil
  | cons x xs ih =>
    obtain ⟨y, rest, hx, hxs, rfl⟩ := mapM_cons_eq_ok h
    exact .cons hx (ih hxs)

/-- Options that are related stay so under a function that takes related values to related ones. -/
theorem optionRel_map {α β γ : Type} {R : α → β → Prop} {S : α → γ → Prop} {g : β → γ}
    {x : Option α} {y : Option β} (h : Option.Rel R x y)
    (hrel : ∀ a b, R a b → S a (g b)) : Option.Rel S x (y.map g) := by
  cases h with
  | none => exact .none
  | some hab => exact .some (hrel _ _ hab)

/-! ## Replacing destinations -/

namespace Command

variable {R S : Nat → Nat → Prop} {command linked : Command} {dest : Nat}

/-- A command whose destinations are replaced, in their order, by related ones. -/
inductive Replaces (R : Nat → Nat → Prop) : Command → Command → Prop where
  | ret : Replaces R .ret .ret
  | raise : Replaces R .raise .raise
  | jump {target found : Nat} : R target found → Replaces R (.jump target) (.jump found)
  | branch {targets found : List Nat} : List.Forall₂ R targets found →
      Replaces R (.branch targets) (.branch found)
  | call (target : CallTarget) : Replaces R (.call target) (.call target)

theorem Replaces.imp (h : command.Replaces R linked)
    (hrel : ∀ dest found, R dest found → S dest found) : command.Replaces S linked := by
  cases h with
  | jump hfound => exact .jump (hrel _ _ hfound)
  | branch hfound => exact .branch (hfound.imp hrel)
  | ret | raise | call => constructor

/-- Renaming what the destinations were replaced by renames the related ones. -/
theorem Replaces.rename {name : Nat → Nat} (h : command.Replaces R linked)
    (hrel : ∀ dest found, R dest found → S dest (name found)) :
    command.Replaces S (linked.rename name) := by
  cases h with
  | jump hfound => exact .jump (hrel _ _ hfound)
  | branch hfound =>
    exact .branch (List.forall₂_map_right_iff.mpr (hfound.imp hrel))
  | ret | raise | call => constructor

theorem Replaces.flip (h : command.Replaces R linked) :
    linked.Replaces (fun found dest => R dest found) command := by
  cases h with
  | jump hfound => exact .jump hfound
  | branch hfound => exact .branch hfound.flip
  | ret | raise | call => constructor

/-- Every destination that was replaced is related to something. -/
theorem Replaces.exists_of_mem (h : command.Replaces R linked)
    (hdest : dest ∈ command.destinations) : ∃ found, R dest found := by
  cases h with
  | ret | raise | call => cases hdest
  | jump hfound =>
    obtain rfl := List.mem_singleton.mp hdest
    exact ⟨_, hfound⟩
  | branch hfound =>
    have hall := hfound.imp fun dest found h =>
      (⟨⟨found, h⟩, trivial⟩ : (∃ found, R dest found) ∧ True)
    exact ((List.forall₂_and_left _ _).mp hall).1 dest hdest

/-- Only related destinations that are equal keep a command as it is. -/
theorem Replaces.eq_self (h : command.Replaces R linked)
    (hself : ∀ dest ∈ command.destinations, ∀ found, R dest found → found = dest) :
    linked = command := by
  cases h with
  | ret | raise | call => rfl
  | jump hfound => rw [hself _ List.mem_cons_self _ hfound]
  | branch hfound =>
    have hsame := ((List.forall₂_and_left _ _).mpr ⟨hself, hfound⟩).imp fun dest found hpair =>
      (hpair.1 found hpair.2).symm
    rw [List.forall₂_eq_eq_eq] at hsame
    exact congrArg Command.branch hsame.symm

variable {locate : Nat → Except Error Nat}

/-- Linking replaces each destination by what is located for it. -/
theorem replaces_of_link (h : command.link locate = .ok linked) :
    command.Replaces (fun dest found => locate dest = .ok found) linked := by
  cases command with
  | jump target =>
    obtain ⟨found, hfound, rfl⟩ := exists_of_map_eq_ok h
    exact .jump hfound
  | branch targets =>
    obtain ⟨found, hfound, rfl⟩ := exists_of_map_eq_ok h
    exact .branch (forall₂_of_mapM hfound)
  | ret | raise | call =>
    obtain rfl := Except.ok.inj h
    constructor

/-- Linking a command fails at one of its destinations. -/
theorem exists_of_link_eq_error {e : Error} (h : command.link locate = .error e) :
    ∃ dest ∈ command.destinations, locate dest = .error e := by
  cases command with
  | jump target => exact ⟨target, List.mem_cons_self, of_map_eq_error h⟩
  | branch targets => exact exists_of_mapM_eq_error (of_map_eq_error h)
  | ret | raise | call => cases h

/-- A step leads to the fallthrough or to a destination of its command. -/
theorem Moves.leadsTo {index : Nat} {next : Option Nat} {site : Option CallSite}
    (h : command.Moves index next site dest) :
    next = some dest ∨ dest ∈ command.destinations := by
  cases h with
  | jump => exact .inr (List.mem_singleton.mpr rfl)
  | choose hdest => exact .inr hdest
  | decline hnext => exact .inl hnext
  | call hnext => exact .inl hnext

/-- A command with other names for its destinations takes the same steps under these names. -/
theorem moves_rename_iff {name : Nat → Nat} {index : Nat} {next : Option Nat}
    {site : Option CallSite} : (command.rename name).Moves index (next.map name) site dest ↔
      ∃ l, command.Moves index next site l ∧ name l = dest := by
  constructor
  · intro h
    cases command with
    | ret | raise => cases h
    | jump target =>
      cases h with
      | jump => exact ⟨target, .jump, rfl⟩
    | branch targets =>
      cases h with
      | choose hdest =>
        obtain ⟨target, htarget, rfl⟩ := List.mem_map.mp hdest
        exact ⟨target, .choose htarget, rfl⟩
      | decline hnext =>
        obtain ⟨l, hl, rfl⟩ := Option.map_eq_some_iff.mp hnext
        exact ⟨l, .decline hl, rfl⟩
    | call target =>
      cases h with
      | call hnext =>
        obtain ⟨l, hl, rfl⟩ := Option.map_eq_some_iff.mp hnext
        exact ⟨l, .call hl, rfl⟩
  · rintro ⟨l, h, rfl⟩
    cases h with
    | jump => exact .jump
    | choose hdest => exact .choose (List.mem_map.mpr ⟨l, hdest, rfl⟩)
    | decline hnext => exact .decline (Option.map_eq_some_iff.mpr ⟨l, hnext, rfl⟩)
    | call hnext => exact .call (Option.map_eq_some_iff.mpr ⟨l, hnext, rfl⟩)

end Command

theorem MethodGraph.lt_size_of_node? {graph : MethodGraph} {i : Nat} {node : Node}
    (h : graph.node? i = some node) : i < graph.nodes.size := by
  by_contra hi
  simp [node?, Array.getElem?_eq_none (Nat.le_of_not_lt hi)] at h

namespace LinkedGraph

variable {graph : LinkedGraph} {k : Nat} {node : LinkedNode}

/-- A handle in a linked method: the start, a fallthrough or a destination of a command. -/
def LeadsTo (graph : LinkedGraph) (k : Nat) : Prop :=
  graph.start = k ∨ ∃ j node, graph.node? j = some node ∧
    (node.next = some k ∨ k ∈ node.command.destinations)

theorem indexOf_eq (h : graph.node? k = some node) : graph.indexOf k = node.index := by
  rw [indexOf, h]
  rfl

/-- An index holds the node that the index table names. -/
theorem node?_indexed (graph : LinkedGraph) (i : Nat) : graph.indexed.node? i =
    ((graph.nodeAt? i).bind graph.node?).map graph.indexedNode := by
  rw [MethodGraph.node?, indexed, Array.getElem?_map]
  by_cases hi : i < graph.byIndex.size
  · simp [hi]
  · have hout : graph.nodeAt? i = none := by simp [nodeAt?, Nat.le_of_not_lt hi]
    simp [hi, hout]

end LinkedGraph

namespace CellArray

variable {array : CellArray} {points : List Nat} {i dest count : Nat} {e : Error}

/-- The node that a command at an index becomes where nodes are addressed by index. -/
structure BecomesNode (array : CellArray) (i : Nat) (command : Command) (node : Node) : Prop where
  command : command.Replaces array.FirstCommand node.command
  next : Option.Rel array.FirstCommand (array.next? i) node.next

/-! ## Numbering the commands -/

/-- The cells to be numbered are those with a command. -/
theorem commandCell?_eq_some_iff {cell : CommandCell} : array.commandCell? i = some cell ↔
    cell.index = i ∧ array.command? i = some cell.command ∧ array.next? i = cell.next := by
  obtain ⟨index, next, command⟩ := cell
  rw [commandCell?, Option.map_eq_some_iff]
  constructor
  · rintro ⟨_, hcommand, heq⟩
    obtain ⟨rfl, rfl, rfl⟩ := CommandCell.mk.inj heq
    exact ⟨rfl, hcommand, rfl⟩
  · rintro ⟨hindex, hcommand, hnext⟩
    exact ⟨command, hcommand, by rw [hnext, ← hindex]⟩

/-- The cells below `count` are numbered: those with a command are listed in their order, and the
table of handles is inverse to this list. -/
structure Numbered (array : CellArray) (count : Nat) (numbering : Numbering) : Prop where
  commands : numbering.commands.toList = (List.range count).filterMap array.commandCell?
  size : numbering.byIndex.size = array.size
  handle (i k : Nat) : (numbering.byIndex[i]?).join = some k ↔
    ∃ cell, numbering.commands[k]? = some cell ∧ cell.index = i

namespace Numbered

variable {numbering : Numbering} {k : Nat} {cell : CommandCell}

/-- A numbered cell holds a command and lies below the bound. -/
theorem commandCell? (h : array.Numbered count numbering)
    (hcell : numbering.commands[k]? = some cell) :
    cell.index < count ∧ array.commandCell? cell.index = some cell := by
  have hmem : cell ∈ numbering.commands.toList :=
    Array.mem_toList_iff.mpr (Array.mem_of_getElem? hcell)
  rw [h.commands, List.mem_filterMap] at hmem
  obtain ⟨index, hindex, hcell⟩ := hmem
  obtain ⟨rfl, -⟩ := commandCell?_eq_some_iff.mp hcell
  exact ⟨List.mem_range.mp hindex, hcell⟩

/-- A new handle goes to the end of the list and is noted at the index of its cell, where no handle
was noted before. -/
theorem add (h : array.Numbered count numbering) (hlt : count < array.size)
    (hcell : array.commandCell? count = some cell) :
    array.Numbered (count + 1) (numbering.add cell) := by
  obtain ⟨hindex, -⟩ := commandCell?_eq_some_iff.mp hcell
  refine ⟨?_, ?_, fun i k => ?_⟩
  · rw [Numbering.add, Array.toList_push, h.commands, List.range_succ, List.filterMap_append]
    simp [hcell]
  · simp [Numbering.add, h.size]
  · have hnew : numbering.commands[numbering.commands.size]? = none :=
      Array.getElem?_eq_none (Nat.le_refl _)
    have hfree : ∀ {k : Nat} {other : CommandCell}, numbering.commands[k]? = some other →
        other.index ≠ count := fun hother => Nat.ne_of_lt (h.commandCell? hother).1
    rw [Numbering.add, Array.getElem?_setIfInBounds, Array.getElem?_push, hindex, h.size]
    by_cases hi : count = i
    · subst i
      by_cases hk : k = numbering.commands.size
      · simp [hk, hlt, hindex]
      · have hnone : ¬∃ cell, numbering.commands[k]? = some cell ∧ cell.index = count := by
          rintro ⟨other, hother, heq⟩
          exact hfree hother heq
        simp [hk, hlt, Ne.symm hk, hnone]
    · by_cases hk : k = numbering.commands.size
      · have hold := h.handle i numbering.commands.size
        rw [hnew] at hold
        subst k
        simp [hi, hindex, hold]
      · simp [hi, hk, h.handle i k]

/-- One round of numbering takes in the next cell. -/
theorem step (h : array.Numbered count numbering) (hlt : count < array.size) :
    array.Numbered (count + 1) (array.numberCell numbering count) := by
  rw [numberCell]
  cases hcell : array.commandCell? count with
  | some cell => exact h.add hlt hcell
  | none =>
    refine ⟨?_, h.size, h.handle⟩
    rw [h.commands, List.range_succ, List.filterMap_append]
    simp [hcell]

end Numbered

/-- Numbering one cell after the other keeps the invariant. -/
theorem numbered_foldl (array : CellArray) (hle : count ≤ array.size) :
    array.Numbered count ((List.range count).foldl array.numberCell
      ⟨#[], Array.replicate array.size none⟩) := by
  induction count with
  | zero =>
    refine ⟨rfl, by simp, fun i k => ?_⟩
    simp only [List.range_zero, List.foldl_nil, Array.getElem?_replicate]
    split <;> simp
  | succ count ih =>
    rw [List.range_succ, List.foldl_append]
    exact (ih (Nat.le_of_succ_le hle)).step hle

/-- Numbering takes in every cell. -/
theorem numbered_numbering (array : CellArray) : array.Numbered array.size array.numbering :=
  array.numbered_foldl (Nat.le_refl _)

/-- Every command gets a handle. -/
theorem Numbered.exists_handle {numbering : Numbering} (h : array.Numbered array.size numbering)
    (hsome : (array.command? i).isSome) : ∃ k, (numbering.byIndex[i]?).join = some k := by
  obtain ⟨command, hcommand⟩ := Option.isSome_iff_exists.mp hsome
  have hcell : array.commandCell? i = some ⟨i, array.next? i, command⟩ :=
    commandCell?_eq_some_iff.mpr ⟨rfl, hcommand, rfl⟩
  have hmem := List.mem_filterMap.mpr ⟨i, List.mem_range.mpr (lt_size_of_isSome hsome), hcell⟩
  rw [← h.commands, List.mem_iff_getElem?] at hmem
  obtain ⟨k, hk⟩ := hmem
  exact ⟨k, (h.handle i k).mpr ⟨_, by simpa using hk, rfl⟩⟩

/-! ## Locating a destination -/

/-- A destination can be resolved if a command lies at or after it. -/
def Resolvable (array : CellArray) (dest : Nat) : Prop :=
  ∃ index, dest ≤ index ∧ (array.command? index).isSome

theorem FirstCommand.resolvable {found : Nat} (h : array.FirstCommand dest found) :
    array.Resolvable dest :=
  ⟨found, h.le, h.isSome⟩

/-- No command is found where none is, and the error names the destination. -/
theorem commandFrom_eq_error (h : array.commandFrom dest = .error e) :
    ¬array.Resolvable dest ∧ e = array.fault dest .noCommandAtOrAfter := by
  refine ⟨?_, ?_⟩
  · rintro ⟨index, hle, hsome⟩
    obtain ⟨found, -, hfirst⟩ := exists_commandFrom? hle hsome
    rw [commandFrom_eq_ok hfirst] at h
    cases h
  · rw [commandFrom] at h
    split at h
    case h_1 => cases h
    case h_2 => exact (Except.error.inj h).symm

/-- A destination is located at the first command at or after it. -/
theorem locate_eq_ok {k : Nat} (h : array.locate array.numbering.byIndex dest = .ok k) :
    ∃ cell, array.numbering.commands[k]? = some cell ∧ array.FirstCommand dest cell.index := by
  obtain ⟨found, hfound, h⟩ := exists_of_bind_eq_ok h
  split at h
  case h_1 handle hhandle =>
    obtain rfl := Except.ok.inj h
    obtain ⟨cell, hcell, rfl⟩ := (array.numbered_numbering.handle _ _).mp hhandle
    exact ⟨cell, hcell, commandFrom_eq_ok_iff.mp hfound⟩
  case h_2 => cases h

/-- A destination can only fail to be located for want of a command at or after it: a command that
was found has a handle. -/
theorem locate_eq_error (h : array.locate array.numbering.byIndex dest = .error e) :
    ¬array.Resolvable dest ∧ e = array.fault dest .noCommandAtOrAfter := by
  rcases of_bind_eq_error h with h | ⟨found, hfound, h⟩
  · exact commandFrom_eq_error h
  · obtain ⟨k, hk⟩ :=
      array.numbered_numbering.exists_handle (commandFrom_eq_ok_iff.mp hfound).isSome
    rw [hk] at h
    cases h

/-! ## Linking the nodes -/

section Node

variable {byIndex : Array (Option Nat)} {cell : CommandCell} {node : LinkedNode}

/-- A node has the index of its cell, and its destinations are located. -/
theorem linkNode_eq_ok (h : array.linkNode byIndex cell = .ok node) :
    node.index = cell.index ∧
      cell.command.Replaces (fun dest k => array.locate byIndex dest = .ok k) node.command ∧
      Option.Rel (fun dest k => array.locate byIndex dest = .ok k) cell.next node.next := by
  obtain ⟨index, next, command⟩ := cell
  obtain ⟨linked, hlinked, h⟩ := exists_of_bind_eq_ok h
  have hcommand := Command.replaces_of_link hlinked
  cases next with
  | none =>
    obtain rfl := Except.ok.inj h
    exact ⟨rfl, hcommand, .none⟩
  | some next =>
    obtain ⟨_, hnext, h⟩ := exists_of_bind_eq_ok h
    obtain ⟨found, hfound, rfl⟩ := exists_of_map_eq_ok hnext
    obtain rfl := Except.ok.inj h
    exact ⟨rfl, hcommand, .some hfound⟩

/-- Linking a node fails at its fallthrough or at a destination of its command. -/
theorem linkNode_eq_error (h : array.linkNode byIndex cell = .error e) :
    ∃ dest, (cell.next = some dest ∨ dest ∈ cell.command.destinations) ∧
      array.locate byIndex dest = .error e := by
  obtain ⟨index, next, command⟩ := cell
  rcases of_bind_eq_error h with h | ⟨linked, -, h⟩
  · obtain ⟨dest, hdest, h⟩ := Command.exists_of_link_eq_error h
    exact ⟨dest, .inr hdest, h⟩
  · cases next with
    | none => cases h
    | some next =>
      rcases of_bind_eq_error h with h | ⟨found, -, h⟩
      · exact ⟨next, .inl rfl, of_map_eq_error h⟩
      · cases h

end Node

/-- What linking has to resolve: the entrance, and where a cell with a command falls through or goes
to. -/
def Requires (array : CellArray) (dest : Nat) : Prop :=
  array.entrance = dest ∨ ∃ i command, array.command? i = some command ∧
    (array.next? i = some dest ∨ dest ∈ command.destinations)

/-- A handle stands for a destination if its node lies at the first command at or after it. -/
def LinksTo (array : CellArray) (graph : LinkedGraph) (dest k : Nat) : Prop :=
  ∃ node, graph.node? k = some node ∧ array.FirstCommand dest node.index

/-- A linked method stands for the cells: it has one node for each cell with a command, in
ascending order, its table of handles is inverse to its nodes, and its handles stand for the
destinations of the cells, in the same order. -/
structure Linked (array : CellArray) (graph : LinkedGraph) : Prop where
  indices : graph.nodes.toList.map LinkedNode.index =
    (List.range array.size).filter fun i => (array.command? i).isSome
  handle (i k : Nat) : graph.nodeAt? i = some k ↔
    ∃ node, graph.node? k = some node ∧ node.index = i
  start : array.LinksTo graph array.entrance graph.start
  node {k : Nat} {node : LinkedNode} : graph.node? k = some node →
    ∃ command, array.command? node.index = some command ∧
      command.Replaces (array.LinksTo graph) node.command ∧
      Option.Rel (array.LinksTo graph) (array.next? node.index) node.next

section Graph

variable {graph : LinkedGraph}

/-- What a successful linking consists of: the nodes lie at the handles of their cells. -/
theorem linkNodes_eq_ok (h : array.linkNodes points = .ok graph) :
    graph.byIndex = array.numbering.byIndex ∧ graph.mergePoints = points ∧
      array.locate array.numbering.byIndex array.entrance = .ok graph.start ∧
      array.numbering.commands.toList.mapM (array.linkNode array.numbering.byIndex) =
        .ok graph.nodes.toList := by
  obtain ⟨nodes, hnodes, h⟩ := exists_of_bind_eq_ok h
  obtain ⟨start, hstart, h⟩ := exists_of_bind_eq_ok h
  obtain rfl := Except.ok.inj h
  exact ⟨rfl, rfl, hstart, hnodes⟩

/-- The handle of a numbered cell is that of the node it is linked to. -/
theorem exists_node?_of_linkNodes (h : array.linkNodes points = .ok graph) {k : Nat}
    {cell : CommandCell} (hcell : array.numbering.commands[k]? = some cell) :
    ∃ node, graph.node? k = some node ∧ array.linkNode array.numbering.byIndex cell = .ok node := by
  obtain ⟨-, -, -, hnodes⟩ := linkNodes_eq_ok h
  obtain ⟨node, hnode, hget⟩ := getElem?_of_mapM hnodes (k := k) (by simpa using hcell)
  exact ⟨node, by simpa [LinkedGraph.node?] using hget, hnode⟩

/-- Every node comes from the cell with its number. -/
theorem exists_cell_of_linkNodes (h : array.linkNodes points = .ok graph) {k : Nat}
    {node : LinkedNode} (hnode : graph.node? k = some node) :
    ∃ cell, array.numbering.commands[k]? = some cell ∧
      array.linkNode array.numbering.byIndex cell = .ok node := by
  obtain ⟨-, -, -, hnodes⟩ := linkNodes_eq_ok h
  have hlength := (forall₂_of_mapM hnodes).length_eq
  rw [Array.length_toList, Array.length_toList] at hlength
  have hk : k < array.numbering.commands.size := by
    obtain ⟨hlt, -⟩ := Array.getElem?_eq_some_iff.mp hnode
    exact hlength ▸ hlt
  have hcell := Array.getElem?_eq_getElem hk
  obtain ⟨other, hother, hlinked⟩ := exists_node?_of_linkNodes h hcell
  obtain rfl := Option.some.inj (hother.symm.trans hnode)
  exact ⟨_, hcell, hlinked⟩

/-- What is located for a destination stands for it in the linked method. -/
theorem linksTo_of_locate (h : array.linkNodes points = .ok graph) {k : Nat}
    (hlocate : array.locate array.numbering.byIndex dest = .ok k) :
    array.LinksTo graph dest k := by
  obtain ⟨cell, hcell, hfirst⟩ := locate_eq_ok hlocate
  obtain ⟨node, hnode, hlinked⟩ := exists_node?_of_linkNodes h hcell
  exact ⟨node, hnode, (linkNode_eq_ok hlinked).1 ▸ hfirst⟩

/-- A successful linking stands for the cells. -/
theorem linked_of_linkNodes (h : array.linkNodes points = .ok graph) : array.Linked graph := by
  obtain ⟨htable, -, hstart, hnodes⟩ := linkNodes_eq_ok h
  have hnumbered := array.numbered_numbering
  refine ⟨?_, fun i k => ?_, linksTo_of_locate h hstart, fun hnode => ?_⟩
  · rw [map_eq_of_mapM (p := CommandCell.index) hnodes fun cell _ node hnode =>
        (linkNode_eq_ok hnode).1, hnumbered.commands, List.map_filterMap,
      ← List.filterMap_eq_filter]
    congr 1
    funext i
    cases hcommand : array.command? i <;> simp [commandCell?, Option.guard, hcommand]
  · rw [LinkedGraph.nodeAt?, htable, hnumbered.handle]
    constructor
    · rintro ⟨cell, hcell, rfl⟩
      obtain ⟨node, hnode, hlinked⟩ := exists_node?_of_linkNodes h hcell
      exact ⟨node, hnode, (linkNode_eq_ok hlinked).1⟩
    · rintro ⟨node, hnode, rfl⟩
      obtain ⟨cell, hcell, hlinked⟩ := exists_cell_of_linkNodes h hnode
      exact ⟨cell, hcell, (linkNode_eq_ok hlinked).1.symm⟩
  · obtain ⟨cell, hcell, hlinked⟩ := exists_cell_of_linkNodes h hnode
    obtain ⟨hindex, hcommand, hnext⟩ := linkNode_eq_ok hlinked
    obtain ⟨-, hread, hreadNext⟩ :=
      commandCell?_eq_some_iff.mp (hnumbered.commandCell? hcell).2
    rw [hindex, hreadNext]
    refine ⟨cell.command, hread, hcommand.imp fun _ _ => linksTo_of_locate h, ?_⟩
    simpa using optionRel_map (g := id) hnext fun _ _ => linksTo_of_locate h

/-- Linking can only fail for a destination that has no command at or after it. -/
theorem linkNodes_eq_error (h : array.linkNodes points = .error e) :
    ∃ dest, array.Requires dest ∧ ¬array.Resolvable dest ∧
      e = array.fault dest .noCommandAtOrAfter := by
  rcases of_bind_eq_error h with h | ⟨nodes, -, h⟩
  · obtain ⟨cell, hcell, h⟩ := exists_of_mapM_eq_error h
    obtain ⟨k, hk⟩ := Array.mem_iff_getElem?.mp (Array.mem_toList_iff.mp hcell)
    obtain ⟨dest, hdest, h⟩ := linkNode_eq_error h
    obtain ⟨-, hcommand, hnext⟩ :=
      commandCell?_eq_some_iff.mp (array.numbered_numbering.commandCell? hk).2
    exact ⟨dest, .inr ⟨cell.index, cell.command, hcommand, hnext ▸ hdest⟩, locate_eq_error h⟩
  · rcases of_bind_eq_error h with h | ⟨start, -, h⟩
    · exact ⟨array.entrance, .inl rfl, locate_eq_error h⟩
    · cases h

namespace Linked

variable {k : Nat} {node : LinkedNode}

/-- Every cell with a command has a node. -/
theorem exists_node? (h : array.Linked graph) (hsome : (array.command? i).isSome) :
    ∃ k node, graph.node? k = some node ∧ node.index = i := by
  have hmem : i ∈ graph.nodes.toList.map LinkedNode.index := by
    rw [h.indices, List.mem_filter]
    exact ⟨List.mem_range.mpr (lt_size_of_isSome hsome), hsome⟩
  obtain ⟨node, hnode, hindex⟩ := List.mem_map.mp hmem
  obtain ⟨k, hk⟩ := Array.mem_iff_getElem?.mp (Array.mem_toList_iff.mp hnode)
  exact ⟨k, node, hk, hindex⟩

/-- What linking has to resolve is resolved. -/
theorem resolvable (h : array.Linked graph) (hdest : array.Requires dest) :
    array.Resolvable dest := by
  have hlinks : ∀ {dest k}, array.LinksTo graph dest k → array.Resolvable dest := by
    rintro dest k ⟨node, -, hfirst⟩
    exact hfirst.resolvable
  rcases hdest with rfl | ⟨i, command, hcommand, hdest⟩
  · exact hlinks h.start
  · obtain ⟨k, node, hnode, rfl⟩ := h.exists_node? (i := i) (by rw [hcommand]; rfl)
    obtain ⟨command', hcommand', hreplaces, hrel⟩ := h.node hnode
    obtain rfl := Option.some.inj (hcommand.symm.trans hcommand')
    rcases hdest with hnext | hdest
    · rw [hnext] at hrel
      generalize node.next = found at hrel
      cases hrel with
      | some hfound => exact hlinks hfound
    · obtain ⟨found, hfound⟩ := hreplaces.exists_of_mem hdest
      exact hlinks hfound

/-- Every handle in a linked method has a node. -/
theorem exists_of_leadsTo (h : array.Linked graph) (hk : graph.LeadsTo k) :
    ∃ node, graph.node? k = some node := by
  have hlinks : ∀ {dest k}, array.LinksTo graph dest k → ∃ node, graph.node? k = some node := by
    rintro dest k ⟨node, hnode, -⟩
    exact ⟨node, hnode⟩
  rcases hk with rfl | ⟨j, node, hnode, hk⟩
  · exact hlinks h.start
  · obtain ⟨command, -, hreplaces, hrel⟩ := h.node hnode
    rcases hk with hnext | hk
    · rw [hnext] at hrel
      generalize array.next? node.index = dest at hrel
      cases hrel with
      | some hfound => exact hlinks hfound
    · obtain ⟨dest, hdest⟩ := hreplaces.flip.exists_of_mem hk
      exact hlinks hdest

/-! ## Addressing nodes by index -/

/-- The nodes by index are those by handle, with every destination given by its index. -/
theorem node?_indexed_eq_some_iff (h : array.Linked graph) {indexed : Node} :
    graph.indexed.node? i = some indexed ↔
      ∃ k node, graph.node? k = some node ∧ node.index = i ∧ graph.indexedNode node = indexed := by
  rw [graph.node?_indexed, Option.map_eq_some_iff]
  constructor
  · rintro ⟨node, hbind, rfl⟩
    obtain ⟨k, hk, hnode⟩ := Option.bind_eq_some_iff.mp hbind
    obtain ⟨other, hother, hindex⟩ := (h.handle i k).mp hk
    obtain rfl := Option.some.inj (hother.symm.trans hnode)
    exact ⟨k, other, hnode, hindex, rfl⟩
  · rintro ⟨k, node, hnode, rfl, rfl⟩
    exact ⟨node, Option.bind_eq_some_iff.mpr ⟨k, (h.handle _ k).mpr ⟨node, hnode, rfl⟩, hnode⟩, rfl⟩

/-- The nodes by index are what the commands of the cells become. -/
theorem becomesNode (h : array.Linked graph) (i : Nat) :
    Option.Rel (array.BecomesNode i) (array.command? i) (graph.indexed.node? i) := by
  have hfirst : ∀ dest k, array.LinksTo graph dest k →
      array.FirstCommand dest (graph.indexOf k) := by
    rintro dest k ⟨node, hnode, hfirst⟩
    rwa [LinkedGraph.indexOf_eq hnode]
  cases hcommand : array.command? i with
  | none =>
    cases hindexed : graph.indexed.node? i with
    | none => exact .none
    | some indexed =>
      obtain ⟨k, node, hnode, rfl, -⟩ := h.node?_indexed_eq_some_iff.mp hindexed
      obtain ⟨command, hsome, -⟩ := h.node hnode
      rw [hcommand] at hsome
      cases hsome
  | some command =>
    obtain ⟨k, node, hnode, rfl⟩ := h.exists_node? (i := i) (by rw [hcommand]; rfl)
    obtain ⟨command', hcommand', hreplaces, hrel⟩ := h.node hnode
    obtain rfl := Option.some.inj (hcommand.symm.trans hcommand')
    rw [h.node?_indexed_eq_some_iff.mpr ⟨k, node, hnode, rfl, rfl⟩]
    exact .some ⟨hreplaces.rename hfirst, optionRel_map hrel hfirst⟩

/-- The start by index lies at the start by handle. -/
theorem nodeAt?_start (h : array.Linked graph) :
    graph.nodeAt? graph.indexed.start = some graph.start := by
  obtain ⟨node, hnode⟩ := h.exists_of_leadsTo (.inl rfl)
  exact (h.handle _ _).mpr ⟨node, hnode, (LinkedGraph.indexOf_eq hnode).symm⟩

/-- The steps from index to index are those from handle to handle. -/
theorem step_indexed_iff (h : array.Linked graph) {site : Option CallSite} {j : Nat} :
    graph.indexed.Step i site j ↔
      ∃ k l, graph.nodeAt? i = some k ∧ graph.nodeAt? j = some l ∧ graph.Step k site l := by
  constructor
  · rintro ⟨indexed, hindexed, hmoves⟩
    obtain ⟨k, node, hnode, rfl, rfl⟩ := h.node?_indexed_eq_some_iff.mp hindexed
    obtain ⟨l, hmove, rfl⟩ := Command.moves_rename_iff.mp hmoves
    obtain ⟨dest, hdest⟩ := h.exists_of_leadsTo (.inr ⟨k, node, hnode, hmove.leadsTo⟩)
    refine ⟨k, l, (h.handle _ k).mpr ⟨node, hnode, rfl⟩, (h.handle _ l).mpr ⟨dest, hdest, ?_⟩,
      node, hnode, hmove⟩
    exact (LinkedGraph.indexOf_eq hdest).symm
  · rintro ⟨k, l, hk, hl, node, hnode, hmoves⟩
    obtain ⟨node', hnode', rfl⟩ := (h.handle i k).mp hk
    obtain rfl := Option.some.inj (hnode.symm.trans hnode')
    obtain ⟨dest, hdest, rfl⟩ := (h.handle j l).mp hl
    exact ⟨_, h.node?_indexed_eq_some_iff.mpr ⟨k, node, hnode, rfl, rfl⟩,
      Command.moves_rename_iff.mpr ⟨l, hmoves, LinkedGraph.indexOf_eq hdest⟩⟩

end Linked

end Graph

section Link

variable {graph : MethodGraph}

/-- Linking succeeds exactly if everything that it has to resolve is resolvable. -/
theorem exists_linkNodes_iff : (∃ graph, array.linkNodes points = .ok graph) ↔
    ∀ dest, array.Requires dest → array.Resolvable dest := by
  constructor
  · rintro ⟨graph, h⟩ dest hdest
    exact (linked_of_linkNodes h).resolvable hdest
  · intro hall
    cases h : array.linkNodes points with
    | ok graph => exact ⟨graph, rfl⟩
    | error e =>
      obtain ⟨dest, hdest, hnot, -⟩ := linkNodes_eq_error h
      exact absurd (hall dest hdest) hnot

/-- Linking succeeds if every destination that is needed can be resolved. -/
theorem exists_link_iff : (∃ graph, array.link points = .ok graph) ↔
    ∀ dest, array.Requires dest → array.Resolvable dest := by
  rw [link, exists_map_ok_iff, exists_linkNodes_iff]

/-- The nodes of a graph are what the commands of the cells become. -/
theorem becomesNode_of_link (h : array.link points = .ok graph) (i : Nat) :
    Option.Rel (array.BecomesNode i) (array.command? i) (graph.node? i) := by
  obtain ⟨linked, hlinked, rfl⟩ := exists_of_map_eq_ok h
  exact (linked_of_linkNodes hlinked).becomesNode i

/-- The start is the first command from the entrance on. -/
theorem firstCommand_start_of_link (h : array.link points = .ok graph) :
    array.FirstCommand array.entrance graph.start := by
  obtain ⟨linked, hlinked, rfl⟩ := exists_of_map_eq_ok h
  obtain ⟨node, hnode, hfirst⟩ := (linked_of_linkNodes hlinked).start
  rwa [LinkedGraph.indexed, LinkedGraph.indexOf_eq hnode]

theorem mergePoints_of_link (h : array.link points = .ok graph) : graph.mergePoints = points := by
  obtain ⟨linked, hlinked, rfl⟩ := exists_of_map_eq_ok h
  exact (linkNodes_eq_ok hlinked).2.1

/-- Every cell with a command becomes a node at its index. -/
theorem exists_node?_of_link {command : Command} (h : array.link points = .ok graph)
    (hc : array.command? i = some command) :
    ∃ node, graph.node? i = some node ∧ array.BecomesNode i command node := by
  have hbecomes := becomesNode_of_link h i
  rw [hc] at hbecomes
  generalize graph.node? i = node at hbecomes
  cases hbecomes with
  | some hnode => exact ⟨_, rfl, hnode⟩

end Link

/-- Linking is faithful and closed. It fails exactly if the entrance, or a destination or
fallthrough of a cell with a command, has no command at or after it, and the error names such a
destination. Otherwise the linked method stands for the cells, in ascending order, and every handle
in it has a node; the graph that addresses the nodes by index starts at the same node and takes the
same steps. -/
theorem link_exact (array : CellArray) (points : List Nat) :
    ((∃ e, array.linkNodes points = .error e) ↔
        ∃ dest, array.Requires dest ∧ ∀ index, dest ≤ index → array.command? index = none) ∧
      (∀ e, array.linkNodes points = .error e →
        ∃ dest, array.Requires dest ∧ (∀ index, dest ≤ index → array.command? index = none) ∧
          e = array.fault dest .noCommandAtOrAfter) ∧
      ∀ graph, array.linkNodes points = .ok graph →
        array.Linked graph ∧ (graph.nodes.toList.map LinkedNode.index).Pairwise (· < ·) ∧
        (∀ k, graph.LeadsTo k → ∃ node, graph.node? k = some node) ∧
        array.link points = .ok graph.indexed ∧
        graph.nodeAt? graph.indexed.start = some graph.start ∧
        ∀ i site j, graph.indexed.Step i site j ↔
          ∃ k l, graph.nodeAt? i = some k ∧ graph.nodeAt? j = some l ∧ graph.Step k site l := by
  have hempty : ∀ dest, (∀ index, dest ≤ index → array.command? index = none) ↔
      ¬array.Resolvable dest := by
    intro dest
    simp [Resolvable]
  simp only [hempty]
  refine ⟨?_, fun e h => linkNodes_eq_error h, fun graph h => ?_⟩
  · have hfails : (∃ e, array.linkNodes points = .error e) ↔
        ¬∃ graph, array.linkNodes points = .ok graph := by
      cases array.linkNodes points <;> simp
    rw [hfails, exists_linkNodes_iff]
    simp
  · have hlinked := linked_of_linkNodes h
    refine ⟨hlinked, ?_, fun k => hlinked.exists_of_leadsTo, ?_, hlinked.nodeAt?_start,
      fun i site j => hlinked.step_indexed_iff⟩
    · rw [hlinked.indices]
      exact List.pairwise_lt_range.filter _
    · rw [link, h]
      rfl

/-- Cells with gaps between the commands, a branch whose targets do not ascend, and a call that
nothing leads to. -/
def gappedArray : CellArray where
  method := ⟨"t/A", "m:()V"⟩
  cells := #[⟨none, none⟩, ⟨some 2, some (.branch [5, 2])⟩, ⟨none, none⟩,
    ⟨some 5, some (.jump 0)⟩, ⟨some 9, none⟩, ⟨some 6, some (.call ⟨none, "a:()V"⟩)⟩,
    ⟨none, some .ret⟩, ⟨none, none⟩]
  entrance := 0

/-- The linked method of `gappedArray`. -/
def gappedGraph : LinkedGraph where
  nodes := #[⟨1, some 1, .branch [2, 1]⟩, ⟨3, some 2, .jump 0⟩,
    ⟨5, some 3, .call ⟨none, "a:()V"⟩⟩, ⟨6, none, .ret⟩]
  byIndex := #[none, some 0, none, some 1, none, some 2, some 3, none]
  start := 0
  mergePoints := [5]

/-- The fallthrough of the cell without a command is out of range, but is not resolved. Entering the
cells behind their last command makes linking fail there. -/
theorem link_exact_gapped :
    gappedArray.linkNodes [5] = .ok gappedGraph ∧
      gappedGraph.nodeAt? 5 = some 2 ∧ gappedGraph.indexed.Step 5 (some ⟨5, ⟨none, "a:()V"⟩⟩) 6 ∧
      ∃ e, CellArray.linkNodes { gappedArray with entrance := 7 } [] = .error e := by
  have hlink : gappedArray.linkNodes [5] = .ok gappedGraph := by decide +kernel
  obtain ⟨hlinked, -, -, -, -, hstep⟩ := (link_exact gappedArray [5]).2.2 gappedGraph hlink
  refine ⟨hlink, (hlinked.handle 5 2).mpr ⟨_, rfl, rfl⟩, ?_, ?_⟩
  · exact (hstep 5 _ 6).mpr ⟨2, 3, rfl, rfl, _, rfl, .call rfl⟩
  · refine (link_exact { gappedArray with entrance := 7 } []).1.mpr
      ⟨7, .inl rfl, fun index hle => ?_⟩
    rcases Nat.eq_or_lt_of_le hle with rfl | hlt
    · rfl
    · exact Option.bind_eq_none_iff.mpr fun cell hcell => absurd hcell (by
        rw [Array.getElem?_eq_none hlt]
        simp)

end CellArray

end CallNgrams
