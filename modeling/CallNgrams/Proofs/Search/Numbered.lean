import Mathlib.Data.List.Forall2
import CallNgrams.Proofs.Search.CallClosure
import CallNgrams.Proofs.Search.Canonical
import CallNgrams.Proofs.Search.FrameHandles

/-!
# The search with numbered frames

A search that numbers its frames goes the same way as one that keeps whole call stacks. Its paths
show those of the other search through the table of frames, which only grows, so what a path shows
does not change. Each task does the same in both searches: they fail with the same error, or lead to
tasks that show each other and find n-grams that do. In particular no lookup of a called or calling
method fails.
-/

namespace CallNgrams

/-! ## Frames behind numbers -/

namespace FrameTable

variable {table table' : FrameTable} {id id' : Nat} {frame : NumberedFrame} {caller : Option Nat}

/-- The frame behind a number that the table has returned. -/
def decode (table : FrameTable) (id : Nat) : Frame :=
  ⟨(table.frame id).point, (table.chain id).tail.map NumberedFrame.point⟩

/-- The program points of a caller and its callers, or none. -/
def stackOf (table : FrameTable) (caller : Option Nat) : List ProgramPoint :=
  caller.elim [] fun id => (table.decode id).point :: (table.decode id).callers

theorem frame_eq (h : table.get? id = some frame) : table.frame id = frame := by
  rw [FrameTable.frame, h]
  rfl

/-- A number in range is decoded in the same way. -/
theorem frameAt_eq_decode (id : Fin table.frames.size) : table.frameAt id = table.decode id := by
  rw [frameAt, decode, frame_eq (get?_fin id)]

namespace Consed

/-- The frames behind a number are at the program point and at the call sites of the callers. -/
theorem map_point_chain_eq (h : table.Consed) (hid : id < table.frames.size) :
    (table.chain id).map NumberedFrame.point =
      (table.decode id).point :: (table.decode id).callers := by
  rw [← frameAt_eq_decode ⟨id, hid⟩, ← h.map_point_chain]

/-- Different numbers stand for different frames. -/
theorem decode_inj (h : table.Consed) (hid : id < table.frames.size)
    (hid' : id' < table.frames.size) (heq : table.decode id = table.decode id') : id = id' := by
  apply h.eq_of_chain hid hid'
  rw [h.map_point_chain_eq hid, h.map_point_chain_eq hid', heq]

theorem depth_decode (h : table.Consed) (hid : id < table.frames.size) :
    (table.decode id).depth = (table.frame id).depth := by
  rw [← frameAt_eq_decode ⟨id, hid⟩, h.depth_frameAt, frame_eq (get?_fin ⟨id, hid⟩)]

theorem caller_lt (h : table.Consed) (hid : id < table.frames.size)
    (hcaller : (table.frame id).caller = some id') : id' < table.frames.size := by
  obtain ⟨frame, hget⟩ := exists_get? hid
  rw [frame_eq hget] at hcaller
  exact (h.older hget hcaller).trans hid

/-- The callers of a frame are those that its caller stands for. -/
theorem callers_decode (h : table.Consed) (hid : id < table.frames.size) :
    (table.decode id).callers = table.stackOf (table.frame id).caller := by
  obtain ⟨frame, hget⟩ := exists_get? hid
  rw [decode, h.chain_eq hget, frame_eq hget, List.tail_cons, stackOf]
  cases hcaller : frame.caller with
  | none => rfl
  | some caller =>
    exact h.map_point_chain_eq (h.caller_lt hid (by rw [frame_eq hget, hcaller]))

end Consed

theorem Extends.lt_size (hext : Extends table table') (hid : id < table.frames.size) :
    id < table'.frames.size := by
  obtain ⟨frame, hget⟩ := exists_get? hid
  exact lt_size_of_get? (hext id frame hget)

/-- A number stands for the same frame in a table that has grown. -/
theorem Extends.decode_eq (hext : Extends table table') (h : table.Consed) (h' : table'.Consed)
    (hid : id < table.frames.size) : table'.decode id = table.decode id := by
  obtain ⟨frame, hget⟩ := exists_get? hid
  rw [decode, decode, hext.chain_eq h h' hid, frame_eq hget, frame_eq (hext id frame hget)]

/-- Interning returns a number for the point on the call stack of the caller. -/
theorem Built.decode_intern (h : table.Built) (point : ProgramPoint)
    (hcaller : ∀ id ∈ caller, id < table.frames.size) :
    (table.intern caller point).1 < (table.intern caller point).2.frames.size ∧
      (table.intern caller point).2.decode (table.intern caller point).1 =
        ⟨point, table.stackOf caller⟩ := by
  have hbuilt := Built.intern point h hcaller
  obtain ⟨-, hget⟩ := h.consed.intern_spec caller point
  have hlt := lt_size_of_get? hget
  refine ⟨hlt, ?_⟩
  have hchain := h.map_point_chain_intern point hcaller
  rw [hbuilt.consed.map_point_chain_eq hlt] at hchain
  obtain ⟨hpoint, hcallers⟩ := List.cons.inj hchain
  have hstack : table.stackOf caller =
      caller.elim [] fun id => (table.chain id).map NumberedFrame.point := by
    cases caller with
    | none => rfl
    | some id => exact (h.consed.map_point_chain_eq (hcaller id rfl)).symm
  rw [hstack]
  exact congrArg₂ Frame.mk hpoint hcallers

/-- Moving a frame to another index returns a number for it, with the callers as they are. -/
theorem Built.decode_withIndex (h : table.Built) (hid : id < table.frames.size) (index : Nat) :
    (table.withIndex id index).2.Built ∧ Extends table (table.withIndex id index).2 ∧
      (table.withIndex id index).1 < (table.withIndex id index).2.frames.size ∧
      (table.withIndex id index).2.decode (table.withIndex id index).1 =
        ⟨⟨(table.decode id).point.method, index⟩, (table.decode id).callers⟩ := by
  obtain ⟨frame, hget⟩ := exists_get? hid
  have hcaller : ∀ outer ∈ frame.caller, outer < table.frames.size :=
    fun outer houter => (h.consed.older hget houter).trans hid
  have hpoint : (table.decode id).point = frame.point :=
    congrArg NumberedFrame.point (frame_eq hget)
  rw [h.consed.withIndex_eq hget index, h.consed.callers_decode hid, hpoint, frame_eq hget]
  exact ⟨.intern _ h hcaller, (h.consed.intern_spec _ _).1, h.decode_intern _ hcaller⟩

/-- A number keeps its frame when the table grows. -/
theorem Extends.frame_eq (hext : Extends table table') (hid : id < table.frames.size) :
    table'.frame id = table.frame id := by
  obtain ⟨frame, hget⟩ := exists_get? hid
  rw [FrameTable.frame_eq hget, FrameTable.frame_eq (hext id frame hget)]

/-- So does the call stack behind a caller. -/
theorem Extends.stackOf_eq (hext : Extends table table') (h : table.Consed) (h' : table'.Consed)
    (hcaller : ∀ id ∈ caller, id < table.frames.size) :
    table'.stackOf caller = table.stackOf caller := by
  cases caller with
  | none => rfl
  | some id => simp only [stackOf, Option.elim_some, hext.decode_eq h h' (hcaller id rfl)]

end FrameTable

/-! ## What a numbered path shows -/

/-- The calls of a gram are made in frames that the table has, and these are those of the other
gram. -/
structure Gram.ShownBy (table : FrameTable) (numbered : Gram Nat) (gram : Gram) : Prop where
  lt_size : ∀ item ∈ numbered.items, item.frame < table.frames.size
  map_decode : numbered.map table.decode = gram

/-- A gram shows the same calls when the table grows. -/
theorem Gram.ShownBy.grow {table table' : FrameTable} {numbered : Gram Nat} {gram : Gram}
    (h : Gram.ShownBy table numbered gram) (hext : FrameTable.Extends table table')
    (hold : table.Consed) (hnew : table'.Consed) : Gram.ShownBy table' numbered gram := by
  refine ⟨fun item hitem => hext.lt_size (h.lt_size item hitem), ?_⟩
  rw [← h.map_decode]
  refine Gram.eq_of_items (List.map_congr_left fun item hitem => ?_)
  rw [GramItem.map, GramItem.map, hext.decode_eq hold hnew (h.lt_size item hitem)]

theorem Gram.ShownBy.keepLast {table : FrameTable} {numbered : Gram Nat} {gram : Gram}
    (h : Gram.ShownBy table numbered gram) (size : Nat) :
    Gram.ShownBy table (numbered.keepLast size) (gram.keepLast size) := by
  refine ⟨fun item hitem => h.lt_size item ?_, ?_⟩
  · rw [Gram.items_keepLast] at hitem
    exact List.mem_of_mem_take hitem
  · rw [Gram.map_keepLast, h.map_decode]

/-- Mapping every member of a list shows what filtering them gives, if none is left out. -/
theorem forall₂_map_filterMap {α β γ : Type} {R : β → γ → Prop} {f : α → β} {g : α → Option γ}
    {xs : List α} (h : ∀ x ∈ xs, ∃ y, g x = some y ∧ R (f x) y) :
    List.Forall₂ R (xs.map f) (xs.filterMap g) := by
  induction xs with
  | nil => exact .nil
  | cons x xs ih =>
    obtain ⟨y, hy, hr⟩ := h x List.mem_cons_self
    rw [List.map_cons, List.filterMap_cons_some hy]
    exact .cons hr (ih fun x' hx' => h x' (List.mem_cons_of_mem _ hx'))

namespace Search

variable {search : Search} {table table' : FrameTable} {numbered : NumberedWalk} {walk : Walk}

/-- A caller and the merge points of all waiting callers show these callers, whose graphs are those
of the program. -/
structure ShowsCallers (search : Search) (table : FrameTable) (caller : Option Nat)
    (outer : List (List Nat)) (callers : List Suspended) : Prop where
  lt_size : ∀ id ∈ caller, id < table.frames.size
  stack : table.stackOf caller = callers.map Suspended.point
  outer : outer = callers.map fun caller => caller.activation.marks
  graph : ∀ caller ∈ callers,
    search.graphs.get? caller.activation.method = some caller.activation.graph

/-- A numbered path shows one with whole call stacks. -/
structure Shows (search : Search) (table : FrameTable) (numbered : NumberedWalk) (walk : Walk) :
    Prop where
  index : numbered.index = walk.index
  graph : numbered.graph = walk.activation.graph
  marks : numbered.marks = walk.activation.marks
  budget : numbered.budget = walk.budget
  gram : Gram.ShownBy table numbered.gram walk.gram
  lt_size : numbered.frame < table.frames.size
  method : (table.decode numbered.frame).point.method = walk.activation.method
  callers : search.ShowsCallers table (table.frame numbered.frame).caller numbered.outer
    walk.callers
  known : search.graphs.get? walk.activation.method = some walk.activation.graph

/-- An entrance into a method shows a path at its beginning. -/
structure ShowsEntrance (search : Search) (table : FrameTable) (entrance : Entrance)
    (walk : Walk) : Prop where
  index : entrance.start.getD walk.activation.graph.start = walk.index
  method : entrance.method = walk.activation.method
  marks : walk.activation.marks = []
  budget : entrance.budget = walk.budget
  gram : Gram.ShownBy table entrance.gram walk.gram
  callers : search.ShowsCallers table entrance.caller entrance.outer walk.callers
  known : search.graphs.get? walk.activation.method = some walk.activation.graph

/-- A task with numbered frames shows one with whole call stacks. -/
inductive ShowsTask (search : Search) (table : FrameTable) : NumberedTask → Task → Prop where
  | enter {entrance : Entrance} {walk : Walk} : search.ShowsEntrance table entrance walk →
      ShowsTask search table (.enter entrance) (.arrive walk)
  | arrive {numbered : NumberedWalk} {walk : Walk} : search.Shows table numbered walk →
      ShowsTask search table (.arrive numbered) (.arrive walk)
  | emit {numbered : NumberedWalk} {walk : Walk} {target : CallTarget} {site : Nat}
      {next : Option Nat} : search.Shows table numbered walk → site < table.frames.size →
      table.decode site = walk.frame →
      ShowsTask search table (.emit numbered target site next) (.emit walk target next)

/-! ### Growing tables -/

section Grow

variable (hext : FrameTable.Extends table table') (hold : table.Consed) (hnew : table'.Consed)

include hext hold hnew

/-- The callers of a path show the same when the table grows. -/
theorem ShowsCallers.grow {caller : Option Nat} {outer : List (List Nat)}
    {callers : List Suspended} (h : search.ShowsCallers table caller outer callers) :
    search.ShowsCallers table' caller outer callers where
  lt_size id hid := hext.lt_size (h.lt_size id hid)
  stack := (hext.stackOf_eq hold hnew h.lt_size).trans h.stack
  outer := h.outer
  graph := h.graph

/-- A path shows the same in a table that has grown. -/
theorem Shows.grow (h : search.Shows table numbered walk) :
    search.Shows table' numbered walk where
  index := h.index
  graph := h.graph
  marks := h.marks
  budget := h.budget
  gram := h.gram.grow hext hold hnew
  lt_size := hext.lt_size h.lt_size
  method := by rw [hext.decode_eq hold hnew h.lt_size, h.method]
  callers := by
    rw [hext.frame_eq h.lt_size]
    exact h.callers.grow hext hold hnew
  known := h.known

/-- A task shows the same when the table grows. -/
theorem ShowsTask.grow {task : NumberedTask} {task' : Task}
    (h : search.ShowsTask table task task') : search.ShowsTask table' task task' := by
  cases h with
  | enter h =>
    exact .enter ⟨h.index, h.method, h.marks, h.budget, h.gram.grow hext hold hnew,
      h.callers.grow hext hold hnew, h.known⟩
  | arrive h => exact .arrive (h.grow hext hold hnew)
  | emit h hsite hdecode =>
    exact .emit (h.grow hext hold hnew) (hext.lt_size hsite)
      ((hext.decode_eq hold hnew hsite).trans hdecode)

end Grow

/-! ### One step -/

namespace Shows

/-- Both paths are at the same program point. -/
theorem point_eq (h : search.Shows table numbered walk) :
    (⟨(table.frame numbered.frame).point.method, numbered.index⟩ : ProgramPoint) = walk.point := by
  rw [Walk.point, ← h.method, h.index]
  rfl

/-- The frame of the visited program point is that of the path, moved to its index. -/
theorem frame_eq (h : search.Shows table numbered walk) (hconsed : table.Consed) :
    (⟨⟨(table.decode numbered.frame).point.method, numbered.index⟩,
      (table.decode numbered.frame).callers⟩ : Frame) = walk.frame := by
  rw [Walk.frame, Walk.point, h.method, h.index, hconsed.callers_decode h.lt_size,
    h.callers.stack]

theorem withIndex (h : search.Shows table numbered walk) (index : Nat) :
    search.Shows table { numbered with index := index } { walk with index := index } :=
  { h with index := rfl }

theorem withGram (h : search.Shows table numbered walk) {gram : Gram Nat} {gram' : Gram}
    (hgram : Gram.ShownBy table gram gram') :
    search.Shows table { numbered with gram := gram } { walk with gram := gram' } :=
  { h with gram := hgram }

/-- A path goes on where the one that it shows does. -/
theorem goTo (h : search.Shows table numbered walk) (next : Option Nat) :
    SameOutcome (search.Shows table) (numbered.goTo table next) (walk.goTo next) := by
  cases next with
  | none =>
    rw [NumberedWalk.goTo, Walk.goTo, h.point_eq]
    exact .error _
  | some index => exact .ok (h.withIndex index)

/-- A path enters the program point, and pays for it, where the one that it shows does. -/
theorem enter? (h : search.Shows table numbered walk) (hconsed : table.Consed) :
    Option.Rel (search.Shows table) (Numbered.enter? search table numbered)
      (search.enter? walk) := by
  have hsurface : ((table.frame numbered.frame).depth != 0) = !walk.callers.isEmpty := by
    rw [← hconsed.depth_decode h.lt_size, Frame.depth, hconsed.callers_decode h.lt_size,
      h.callers.stack, List.length_map]
    cases walk.callers <;> rfl
  obtain ⟨index, graph, frame, marks, outer, budget, gram⟩ := numbered
  obtain rfl : index = walk.index := h.index
  obtain rfl : graph = walk.activation.graph := h.graph
  obtain rfl : marks = walk.activation.marks := h.marks
  obtain rfl : budget = walk.budget := h.budget
  simp only [Numbered.enter?, Search.enter?, hsurface]
  split
  · exact .some h
  · split
    · exact .none
    · split
      · split
        · exact .none
        · exact .some { h with marks := rfl, budget := rfl }
      · exact .some { h with marks := rfl }

/-- The same methods run on both paths. -/
theorem isRunning (h : search.Shows table numbered walk) (hconsed : table.Consed)
    (signature : String) :
    Numbered.isRunning table numbered signature = walk.isRunning signature := by
  have hchain : Numbered.isRunning table numbered signature =
      ((table.chain numbered.frame).map NumberedFrame.point).any fun point =>
        point.method.signature == signature := by
    rw [List.any_map]
    rfl
  rw [hchain, hconsed.map_point_chain_eq h.lt_size, hconsed.callers_decode h.lt_size,
    h.callers.stack, List.any_cons, h.method, List.any_map]
  rfl

/-- Whether a target is dug into depends on the targets of earlier calls only. -/
theorem isDug (h : search.Shows table numbered walk) (target : CallTarget) :
    search.isDug target numbered.gram = search.isDug target walk.gram := by
  rw [← h.gram.map_decode, Search.isDug, Search.isDug, Gram.isRecentlyFree_map]

/-- The frame of a call shows the caller of the methods that it leads to. -/
theorem showsCallers (h : search.Shows table numbered walk) {site : Nat}
    (hsite : site < table.frames.size) (hdecode : table.decode site = walk.frame) :
    search.ShowsCallers table (some site) (numbered.marks :: numbered.outer)
      (⟨walk.activation, walk.index⟩ :: walk.callers) where
  lt_size id hid := by
    obtain rfl := Option.some.inj hid
    exact hsite
  stack := by
    rw [FrameTable.stackOf, Option.elim_some, hdecode]
    rfl
  outer := by rw [h.marks, h.callers.outer, List.map_cons]
  graph caller hcaller := by
    rcases List.mem_cons.mp hcaller with rfl | hcaller
    · exact h.known
    · exact h.callers.graph caller hcaller

/-- A call leads to the same methods, all of which are known. -/
theorem callees (h : search.Shows table numbered walk) (hconsed : table.Consed) {site : Nat}
    (hsite : site < table.frames.size) (hdecode : table.decode site = walk.frame)
    (target : CallTarget) :
    List.Forall₂ (search.ShowsEntrance table)
      (Numbered.callees search table numbered site target) (search.callees walk target) := by
  have hcount : numbered.gram.count = walk.gram.count := by
    rw [← h.gram.map_decode, Gram.count_map]
  rw [Numbered.callees, Search.callees, hcount, h.budget, h.isDug, h.isRunning hconsed]
  split
  · exact .nil
  · refine forall₂_map_filterMap fun owner howner => ?_
    rw [candidates_eq_filter] at howner
    have hsome := SignatureTable.mem_definers.mp (List.mem_filter.mp howner).1
    obtain ⟨graph, hgraph⟩ := Option.isSome_iff_exists.mp hsome
    refine ⟨search.callee walk ⟨owner, target.signature⟩ graph, by simp [hgraph], ?_⟩
    exact ⟨rfl, rfl, rfl, rfl, h.gram.keepLast _, h.showsCallers hsite hdecode, hgraph⟩

/-- A path continues in the caller where the one that it shows does: the graph of the caller is the
one that it was suspended in. -/
theorem continueIn (h : search.Shows table numbered walk) (hconsed : table.Consed) {site : Nat}
    {marks : List Nat} {outer : List (List Nat)} {caller : Suspended} {callers : List Suspended}
    (hcallers : search.ShowsCallers table (some site) (marks :: outer) (caller :: callers)) :
    SameOutcome (search.Shows table)
      (Numbered.continueIn search table numbered site marks outer)
      (Search.continueIn walk caller callers) := by
  have hsite : site < table.frames.size := hcallers.lt_size site rfl
  obtain ⟨hpoint, hstack⟩ := List.cons.inj hcallers.stack
  obtain ⟨rfl, rfl⟩ := List.cons.inj hcallers.outer
  have hpoint : (table.frame site).point = caller.point := hpoint
  have hgraph := hcallers.graph caller List.mem_cons_self
  have hmethod : caller.point.method = caller.activation.method := rfl
  have hindex : caller.point.index = caller.site := rfl
  simp only [Numbered.continueIn, Numbered.graphOf, Search.continueIn, hpoint, hmethod, hindex,
    hgraph, bind, Except.bind]
  cases caller.activation.graph.node? caller.site with
  | none => exact .error _
  | some node =>
    cases hnext : node.next with
    | none =>
      simp only [hnext]
      exact .error _
    | some next =>
      simp only [hnext]
      refine .ok ⟨rfl, rfl, rfl, h.budget, h.gram, hsite, ?_, ⟨fun id hid => ?_, ?_, rfl, ?_⟩,
        hgraph⟩
      · rw [FrameTable.decode, hpoint, hmethod]
      · exact hconsed.caller_lt hsite hid
      · rw [← hconsed.callers_decode hsite, hstack]
      · exact fun other hother => hcallers.graph other (List.mem_cons_of_mem _ hother)

/-- Control returns to the same caller. -/
theorem returns (h : search.Shows table numbered walk) (hconsed : table.Consed) :
    SameOutcome (List.Forall₂ (search.Shows table)) (Numbered.returns search table numbered)
      (search.returns walk) := by
  have hcallers := h.callers
  rw [Numbered.returns, Search.returns]
  split
  · exact .ok .nil
  · cases hwaiting : walk.callers with
    | nil =>
      have houter : numbered.outer = [] := by rw [hcallers.outer, hwaiting, List.map_nil]
      rw [houter]
      cases (table.frame numbered.frame).caller <;> exact .ok .nil
    | cons caller callers =>
      rw [hwaiting] at hcallers
      cases hcaller : (table.frame numbered.frame).caller with
      | none =>
        have hstack := hcallers.stack
        rw [hcaller] at hstack
        cases hstack
      | some site =>
        rw [hcaller, hcallers.outer, List.map_cons] at hcallers
        rw [h.callers.outer, hwaiting, List.map_cons]
        refine (h.continueIn hconsed hcallers).map fun _ _ hshows => ?_
        exact .cons hshows .nil

/-- The walks behind a branch show each other. -/
theorem choices (h : search.Shows table numbered walk) (targets : List Nat) (next : Option Nat) :
    SameOutcome (List.Forall₂ (search.Shows table))
      (Numbered.choices search table numbered targets next) (search.choices walk targets next) := by
  rw [Numbered.choices, Search.choices]
  refine (h.goTo next).bind fun straight straight' hstraight => .ok (.cons hstraight ?_)
  split
  · exact .nil
  · rw [List.forall₂_map_left_iff, List.forall₂_map_right_iff]
    refine List.forall₂_same.mpr fun target _ => ?_
    exact (h.withGram (h.gram.keepLast _)).withIndex target

end Shows

/-- The tasks behind an arrival show each other, in a table that may have grown. -/
structure SameTasks (search : Search) (table : FrameTable)
    (result : FrameTable × List NumberedTask) (tasks : List Task) : Prop where
  built : result.1.Built
  grows : FrameTable.Extends table result.1
  shown : List.Forall₂ (search.ShowsTask result.1) result.2 tasks

/-- Paths that show each other arrive in tasks that do. -/
theorem SameTasks.arrive (hbuilt : table.Built) {numbered : List NumberedWalk} {walks : List Walk}
    (h : List.Forall₂ (search.Shows table) numbered walks) :
    search.SameTasks table (table, numbered.map .arrive) (walks.map .arrive) := by
  refine ⟨hbuilt, .refl _, ?_⟩
  rw [List.forall₂_map_left_iff, List.forall₂_map_right_iff]
  exact h.imp fun _ _ => .arrive

/-- What follows an arrival is the same in both searches, or the same error. -/
theorem Shows.expand (h : search.Shows table numbered walk) (hbuilt : table.Built) :
    SameOutcome (search.SameTasks table) (Numbered.expand search numbered table)
      (search.expand walk) := by
  have hconsed := hbuilt.consed
  rw [Numbered.expand, Search.expand, h.graph, h.index]
  cases hnode : walk.activation.graph.node? walk.index with
  | none =>
    rw [← h.index, h.point_eq]
    exact .error _
  | some node =>
    have hentered := h.enter? hconsed
    generalize Numbered.enter? search table numbered = entered? at hentered
    generalize search.enter? walk = entered?' at hentered
    cases hentered with
    | none => exact .ok (SameTasks.arrive hbuilt .nil)
    | @some entered entered' hentered =>
      dsimp only
      cases node.command with
      | ret => exact (hentered.returns hconsed).map fun _ _ => SameTasks.arrive hbuilt
      | raise => exact .ok (SameTasks.arrive hbuilt .nil)
      | jump target =>
        exact .ok (SameTasks.arrive hbuilt (.cons (hentered.withIndex target) .nil))
      | branch targets =>
        exact (hentered.choices targets node.next).map fun _ _ => SameTasks.arrive hbuilt
      | call target =>
        obtain ⟨hnew, hext, hsite, hdecode⟩ :=
          hbuilt.decode_withIndex hentered.lt_size entered.index
        rw [hentered.frame_eq hconsed] at hdecode
        have hgrown := hentered.grow hext hconsed hnew.consed
        refine .ok ⟨hnew, hext, List.rel_append ?_ (.cons (.emit hgrown hsite hdecode) .nil)⟩
        rw [List.forall₂_map_left_iff, List.forall₂_map_right_iff]
        exact (hgrown.callees hnew.consed hsite hdecode target).imp fun _ _ => .enter

end Search

end CallNgrams
