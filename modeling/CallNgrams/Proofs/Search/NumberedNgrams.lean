import CallNgrams.Proofs.Search.Numbered

/-!
# N-grams with numbered frames

The n-grams that a search with numbered frames finds are those of the search with whole call stacks,
once their numbers are read off the table of frames. Sorted by target and call stack, they are
rendered in the same way, so which of the two searches is run does not show.
-/

namespace CallNgrams

/-! ## Members -/

namespace NumberedSet

variable {set : NumberedSet} {ngram other : Ngram Nat}

/-- An inserted n-gram is filed under its first call. -/
theorem tails_insert (head : GramItem Nat) : (set.insert ngram).tails head =
    if ngram.head = head then (set.tails ngram.head).insert ngram.tail else set.tails head := by
  rw [tails, insert, Std.TreeMap.getElem?_insert]
  simp only [Std.LawfulEqOrd.compare_eq_iff_eq]
  split <;> rfl

/-- A set contains the inserted n-gram and what it contained before. -/
theorem contains_insert :
    (set.insert other).contains ngram = true ↔ ngram = other ∨ set.contains ngram = true := by
  obtain ⟨head, tail⟩ := ngram
  obtain ⟨head', tail'⟩ := other
  rw [contains, tails_insert, contains]
  by_cases hhead : head' = head
  · subst head'
    rw [if_pos rfl, Std.TreeSet.contains_insert, Bool.or_eq_true, beq_iff_eq,
      Std.LawfulEqOrd.compare_eq_iff_eq, Ngram.mk.injEq, eq_self, true_and, eq_comm]
  · simp [hhead, Ne.symm hhead]

/-- The n-grams of a set, with the frames behind their numbers, are those of another set. No first
call is kept without an n-gram. -/
structure Holds (numbered : NumberedSet) (found : NgramSet) : Prop where
  built : numbered.table.Built
  lt_size : ∀ ngram, numbered.contains ngram = true →
    ∀ item ∈ ngram.toList, item.frame < numbered.table.frames.size
  mem (ngram : Ngram) : ngram ∈ found.toList ↔
    ∃ other, numbered.contains other = true ∧ other.map numbered.table.decode = ngram
  nonempty (head : GramItem Nat) (tails : Std.TreeSet (List (GramItem Nat))) :
    numbered.grams[head]? = some tails → ∃ tail, tails.contains tail = true

theorem holds_empty : empty.Holds .empty where
  built := .empty
  lt_size ngram h := by simp [empty, contains, tails] at h
  mem ngram := by simp [empty, contains, tails]
  nonempty head tails h := by simp [empty] at h

variable {numbered : NumberedSet} {found : NgramSet}

/-- Lists with the same images are equal if their members are told apart by these. -/
theorem eq_of_map_eq {α β : Type} {f : α → β} {xs ys : List α}
    (h : ∀ x ∈ xs, ∀ y ∈ ys, f x = f y → x = y) (heq : xs.map f = ys.map f) : xs = ys := by
  induction xs generalizing ys with
  | nil => exact (List.map_eq_nil_iff.mp heq.symm).symm
  | cons x xs ih =>
    cases ys with
    | nil => cases heq
    | cons y ys =>
      obtain ⟨hfirst, hrest⟩ := List.cons.inj heq
      rw [h x List.mem_cons_self y List.mem_cons_self hfirst,
        ih (fun x hx y hy => h x (List.mem_cons_of_mem _ hx) y (List.mem_cons_of_mem _ hy)) hrest]

/-- N-grams whose frames the table has are told apart by these frames. -/
theorem map_decode_inj {table : FrameTable} (h : table.Consed)
    (hlt : ∀ item ∈ ngram.toList, item.frame < table.frames.size)
    (hlt' : ∀ item ∈ other.toList, item.frame < table.frames.size)
    (heq : ngram.map table.decode = other.map table.decode) : ngram = other := by
  have hinj : ∀ item ∈ ngram.toList, ∀ item' ∈ other.toList,
      item.map table.decode = item'.map table.decode → item = item' := by
    rintro ⟨target, id⟩ hitem ⟨target', id'⟩ hitem' hsame
    obtain rfl : target = target' := congrArg GramItem.target hsame
    obtain rfl : id = id' :=
      h.decode_inj (hlt _ hitem) (hlt' _ hitem') (congrArg GramItem.frame hsame)
    rfl
  obtain ⟨head, tail⟩ := ngram
  obtain ⟨head', tail'⟩ := other
  obtain ⟨rfl, rfl⟩ := List.cons.inj (eq_of_map_eq hinj (congrArg Ngram.toList heq))
  rfl

namespace Holds

/-- An n-gram is in the one set if the n-gram with the frames behind its numbers is in the other. -/
theorem contains_eq (h : numbered.Holds found)
    (hlt : ∀ item ∈ ngram.toList, item.frame < numbered.table.frames.size) :
    numbered.contains ngram = found.contains (ngram.map numbered.table.decode) := by
  rw [Bool.eq_iff_iff, NgramSet.contains_iff, h.mem]
  constructor
  · intro hngram
    exact ⟨ngram, hngram, rfl⟩
  · rintro ⟨other, hother, heq⟩
    rwa [← map_decode_inj h.built.consed (h.lt_size other hother) hlt heq]

/-- Adding an n-gram to both sets keeps them alike. -/
theorem insert (h : numbered.Holds found)
    (hlt : ∀ item ∈ ngram.toList, item.frame < numbered.table.frames.size) :
    (numbered.insert ngram).Holds (found.insert (ngram.map numbered.table.decode)) where
  built := h.built
  lt_size other hother := by
    rcases contains_insert.mp hother with rfl | hother
    · exact hlt
    · exact h.lt_size other hother
  mem other := by
    simp only [NgramSet.mem_insert, h.mem, contains_insert, or_and_right, exists_or,
      exists_eq_left]
    rw [eq_comm]
    rfl
  nonempty head tails hget := by
    rw [NumberedSet.insert, Std.TreeMap.getElem?_insert] at hget
    split at hget
    · obtain rfl := Option.some.inj hget
      exact ⟨ngram.tail, by simp⟩
    · exact h.nonempty head tails hget

/-- A larger table of frames holds the same n-grams. -/
theorem grow (h : numbered.Holds found) {table : FrameTable} (hbuilt : table.Built)
    (hext : FrameTable.Extends numbered.table table) :
    ({ numbered with table := table } : NumberedSet).Holds found where
  built := hbuilt
  lt_size ngram hngram item hitem := hext.lt_size (h.lt_size ngram hngram item hitem)
  mem ngram := by
    have hsame : ∀ other, numbered.contains other = true →
        other.map table.decode = other.map numbered.table.decode := by
      intro other hother
      have hitems : ∀ item ∈ other.toList,
          item.map table.decode = item.map numbered.table.decode := by
        intro item hitem
        rw [GramItem.map, GramItem.map, hext.decode_eq h.built.consed hbuilt.consed
          (h.lt_size other hother item hitem)]
      rw [Ngram.map, Ngram.map, hitems _ List.mem_cons_self,
        List.map_congr_left fun item hitem => hitems item (List.mem_cons_of_mem _ hitem)]
    rw [h.mem]
    constructor
    · rintro ⟨other, hother, rfl⟩
      exact ⟨other, hother, hsame other hother⟩
    · rintro ⟨other, hother, rfl⟩
      exact ⟨other, hother, (hsame other hother).symm⟩
  nonempty := h.nonempty

end Holds

end NumberedSet

/-! ## Whole searches -/

/-- A call in a frame that the table has can be pushed on both grams. -/
theorem Gram.ShownBy.push {table : FrameTable} {numbered : Gram Nat} {gram : Gram}
    (h : Gram.ShownBy table numbered gram) (target : CallTarget) {site : Nat} {frame : Frame}
    (hsite : site < table.frames.size) (hdecode : table.decode site = frame) :
    Gram.ShownBy table (numbered.push ⟨target, site⟩) (gram.push ⟨target, frame⟩) := by
  refine ⟨fun item hitem => ?_, ?_⟩
  · rcases List.mem_cons.mp hitem with rfl | hitem
    · exact hsite
    · exact h.lt_size item hitem
  · rw [Gram.map_push, h.map_decode, GramItem.map, hdecode]

theorem Gram.ShownBy.dropLast {table : FrameTable} {numbered : Gram Nat} {gram : Gram}
    (h : Gram.ShownBy table numbered gram) (count : Nat) :
    Gram.ShownBy table (numbered.dropLast count) (gram.dropLast count) := by
  refine ⟨fun item hitem => h.lt_size item (List.mem_of_mem_drop hitem), ?_⟩
  rw [Gram.map_dropLast, h.map_decode]

/-- The frames of a window are frames of its gram. -/
theorem Gram.ShownBy.lt_size_of_window {table : FrameTable} {numbered : Gram Nat} {gram : Gram}
    (h : Gram.ShownBy table numbered gram) {size : Nat} {ngram : Ngram Nat}
    (hwindow : numbered.window? size = some ngram) :
    ∀ item ∈ ngram.toList, item.frame < table.frames.size := by
  intro item hitem
  obtain ⟨-, htoList⟩ := Gram.window?_eq_some_iff.mp hwindow
  rw [htoList, List.mem_reverse] at hitem
  exact h.lt_size item (List.mem_of_mem_take hitem)

namespace Search

variable {search : Search} {numbered : NumberedWalk} {walk : Walk} {set : NumberedSet}
  {found : NgramSet}

/-- Two searches that have performed a task hold the same n-grams, and the tasks behind it show each
other. -/
structure SameResult (search : Search) (table : FrameTable)
    (result : NumberedSet × List NumberedTask) (result' : NgramSet × List Task) : Prop where
  holds : result.1.Holds result'.1
  grows : FrameTable.Extends table result.1.table
  shown : List.Forall₂ (search.ShowsTask result.1.table) result.2 result'.2

/-- A path goes on behind a call, with the n-grams found then. -/
theorem Shows.goOn (h : search.Shows set.table numbered walk) (next : Option Nat)
    {set' : NumberedSet} (hset : set'.table = set.table) (hfound : set'.Holds found) :
    SameOutcome (search.SameResult set.table)
      (numbered.goTo set.table next >>= fun walk => .ok (set', [.arrive walk]))
      (walk.goTo next >>= fun walk => .ok (found, [.arrive walk])) := by
  refine (h.goTo next).bind fun _ _ hgone => .ok ⟨hfound, ?_, .cons (.arrive ?_) .nil⟩
  · rw [hset]
    exact .refl _
  · rwa [hset]

/-- A call has the same effect in both searches. -/
theorem Shows.emit (h : search.Shows set.table numbered walk) (hfound : set.Holds found)
    (target : CallTarget) {site : Nat} (next : Option Nat) (hsite : site < set.table.frames.size)
    (hdecode : set.table.decode site = walk.frame) :
    SameOutcome (search.SameResult set.table)
      (Numbered.emit search numbered target site next set)
      (search.emit walk target next found) := by
  have hgram := h.gram.push target hsite hdecode
  have hrepeat := Gram.shortestRepeat?_map set.table.decode search.options.size
    (numbered.gram.push ⟨target, site⟩)
  have hwindow := Gram.window?_map set.table.decode search.options.size
    (numbered.gram.push ⟨target, site⟩)
  rw [hgram.map_decode] at hrepeat hwindow
  simp only [Numbered.emit, Search.emit, hrepeat, hwindow]
  generalize (if search.options.allowRepetitive = true then none
    else (numbered.gram.push ⟨target, site⟩).shortestRepeat? search.options.size) = period?
  cases period? with
  | some period => exact (h.withGram (hgram.dropLast period)).goOn next rfl hfound
  | none =>
    cases hngram : (numbered.gram.push ⟨target, site⟩).window? search.options.size with
    | none => exact (h.withGram hgram).goOn next rfl hfound
    | some ngram =>
      have hlt := hgram.lt_size_of_window hngram
      have hforeign : search.isForeign (ngram.map set.table.decode).head =
          search.isForeignAt (set.table.frame ngram.head.frame).point
            (set.table.frame ngram.head.frame).depth := by
        rw [← hfound.built.consed.depth_decode (hlt _ List.mem_cons_self)]
        rfl
      simp only [Option.map_some, hforeign, hfound.contains_eq hlt]
      split
      · exact .ok ⟨hfound, .refl _, .nil⟩
      · exact (h.withGram hgram).goOn next rfl (hfound.insert hlt)

/-- Entering a method shows the path at its beginning, in a new frame. -/
theorem ShowsEntrance.enterMethod {table : FrameTable} {entrance : Entrance}
    (h : search.ShowsEntrance table entrance walk) (hbuilt : table.Built) :
    ∃ numbered table', Numbered.enterMethod search entrance table = .ok (numbered, table') ∧
      table'.Built ∧ FrameTable.Extends table table' ∧ search.Shows table' numbered walk := by
  obtain ⟨index, activation, callers, budget, gram⟩ := walk
  obtain ⟨method, graph, marks⟩ := activation
  obtain ⟨method', caller, outer, start, budget', gram'⟩ := entrance
  obtain rfl : start.getD graph.start = index := h.index
  obtain rfl : method' = method := h.method
  obtain rfl : marks = [] := h.marks
  obtain rfl : budget' = budget := h.budget
  have hcallers : search.ShowsCallers table caller outer callers := h.callers
  have hknown : search.graphs.get? method' = some graph := h.known
  have hnew := FrameTable.Built.intern ⟨method', start.getD graph.start⟩ hbuilt hcallers.lt_size
  obtain ⟨hext, hget⟩ :=
    hbuilt.consed.intern_spec caller ⟨method', start.getD graph.start⟩
  obtain ⟨hlt, hdecode⟩ :=
    hbuilt.decode_intern ⟨method', start.getD graph.start⟩ hcallers.lt_size
  have hrun : Numbered.enterMethod search ⟨method', caller, outer, start, budget', gram'⟩ table =
      .ok (⟨start.getD graph.start, graph,
        (table.intern caller ⟨method', start.getD graph.start⟩).1, [], outer, budget', gram'⟩,
        (table.intern caller ⟨method', start.getD graph.start⟩).2) := by
    simp only [Numbered.enterMethod, Numbered.graphOf, hknown, bind, Except.bind]
  refine ⟨_, _, hrun, hnew, hext, rfl, rfl, rfl, rfl,
    h.gram.grow hext hbuilt.consed hnew.consed, hlt, ?_, ?_, hknown⟩
  · rw [hdecode]
  · rw [FrameTable.frame_eq hget]
    exact hcallers.grow hext hbuilt.consed hnew.consed

/-- What follows an arrival adds no n-gram, and the table only grows. -/
theorem Shows.perform {table : FrameTable} (h : search.Shows table numbered walk)
    (hbuilt : table.Built) (hext : FrameTable.Extends set.table table) (hfound : set.Holds found) :
    SameOutcome (search.SameResult set.table)
      (Numbered.expand search numbered table >>= fun result =>
        .ok ({ set with table := result.1 }, result.2))
      ((search.expand walk).map fun tasks => (found, tasks)) := by
  have hexpand := h.expand hbuilt
  generalize Numbered.expand search numbered table = result at hexpand
  generalize search.expand walk = tasks at hexpand
  cases hexpand with
  | error e => exact .error e
  | ok hsame =>
    have hgrown := hext.trans hsame.grows
    exact .ok ⟨hfound.grow hsame.built hgrown, hgrown, hsame.shown⟩

/-- Performing a task has the same outcome in both searches. -/
theorem perform_same {task : NumberedTask} {task' : Task}
    (h : search.ShowsTask set.table task task') (hfound : set.Holds found) :
    SameOutcome (search.SameResult set.table) (Numbered.perform search task set)
      (search.perform task' found) := by
  cases h with
  | enter h =>
    obtain ⟨numbered, table, hrun, hbuilt, hext, hshows⟩ := h.enterMethod hfound.built
    rw [Numbered.perform, hrun]
    exact hshows.perform hbuilt hext hfound
  | arrive h => exact h.perform hfound.built (.refl _) hfound
  | emit h hsite hdecode => exact h.emit hfound _ _ hsite hdecode

/-- Following a task has the same outcome in both searches. -/
theorem explore_same {task : NumberedTask} {task' : Task} (depth : Nat)
    (h : search.ShowsTask set.table task task') (hfound : set.Holds found) :
    SameOutcome NumberedSet.Holds (Numbered.explore search depth task set)
      (search.explore depth task' found) := by
  refine (follow_same (P := NumberedSet.Holds) (R := fun set => search.ShowsTask set.table)
    (E := fun set set' => FrameTable.Extends set.table set'.table) _ (fun set => .refl _)
    .trans ?_ ?_ depth hfound h).imp fun _ _ hend => hend.1
  · intro set set' found found' task task' hold hnew hext hshows
    exact hshows.grow hext hold.built.consed hnew.built.consed
  · intro set found task task' hfound hshows
    exact (perform_same hshows hfound).imp fun _ _ hsame =>
      ⟨hsame.holds, hsame.grows, hsame.shown⟩

/-- Following all paths from an index of the starting method has the same outcome. -/
theorem exploreFrom_same {graph : MethodGraph}
    (hroot : search.graphs.get? search.root = some graph) (depth index : Nat)
    (hfound : set.Holds found) :
    SameOutcome NumberedSet.Holds (Numbered.exploreFrom search depth index set)
      (search.exploreFrom depth graph index found) := by
  refine explore_same depth (.enter ⟨rfl, rfl, rfl, rfl, ⟨?_, rfl⟩, ⟨?_, rfl, rfl, ?_⟩, hroot⟩)
    hfound
  · intro item hitem
    cases hitem
  · intro id hid
    cases hid
  · intro caller hcaller
    cases hcaller

end Search

section Ngrams

variable (depth : Nat) (graphs : GraphTable) (policy : DigPolicy) (options : SearchOptions)
  (root : MethodKey)

/-- Both searches start in the same graph of the table. -/
theorem startingGraph_same :
    SameOutcome (fun graph graph' => graph = graph' ∧ graphs.get? root = some graph)
      (startingGraph graphs options root) (startingGraph graphs options root) := by
  rw [startingGraph]
  split
  · exact .error _
  · split
    case h_1 => exact .error _
    case h_2 graph hget => exact .ok ⟨rfl, hget⟩

/-- The searches from the start of a method have the same outcome. -/
theorem ngramsWithin_same :
    SameOutcome NumberedSet.Holds (Search.Numbered.ngramsWithin depth graphs policy options root)
      (ngramsWithin depth graphs policy options root) := by
  refine (startingGraph_same graphs options root).bind fun graph graph' hgraph => ?_
  obtain ⟨rfl, hroot⟩ := hgraph
  exact Search.exploreFrom_same hroot depth graph.start NumberedSet.holds_empty

/-- The searches from given indices of a method have the same outcome. -/
theorem ngramsFromWithin_same (indices : List Nat) :
    SameOutcome NumberedSet.Holds
      (Search.Numbered.ngramsFromWithin depth graphs policy options root indices)
      (ngramsFromWithin depth graphs policy options root indices) := by
  refine (startingGraph_same graphs options root).bind fun graph graph' hgraph => ?_
  obtain ⟨rfl, hroot⟩ := hgraph
  refine (SameOutcome.foldlM (R := fun _ index index' => index = index') (E := fun _ _ => True)
    (fun _ => trivial) (fun _ _ => trivial) (fun _ _ _ => id) ?_ NumberedSet.holds_empty
    (List.forall₂_same.mpr fun _ _ => rfl)).imp fun _ _ hend => hend.1
  rintro set found index _ hfound rfl
  rw [Search.Numbered.addNgramsFrom, addNgramsFrom]
  cases graph.node? index with
  | none => exact .error _
  | some node =>
    have hsame : SameOutcome NumberedSet.Holds
        (Search.Numbered.exploreFrom ⟨graphs, policy, options, root, some index⟩ depth index set)
        (Search.exploreFrom ⟨graphs, policy, options, root, some index⟩ depth graph index found) :=
      Search.exploreFrom_same hroot depth index hfound
    exact hsame.imp fun _ _ hend => ⟨hend, trivial⟩

end Ngrams

/-! ## Renderings -/

/-- A call without the proof that the table has its frame. -/
def NumberedCall.plain {table : FrameTable} (call : NumberedCall table) : GramItem Nat :=
  ⟨call.target, call.frame⟩

/-- A first call and the further calls, without the proofs that the table has their frames. -/
def NumberedGroup.plain {table : FrameTable} (group : NumberedGroup table) :
    GramItem Nat × List (List (GramItem Nat)) :=
  (group.head.plain, group.tails.map (List.map NumberedCall.plain))

section Plain

variable {table : FrameTable}

theorem NumberedCall.map_decode_plain (call : NumberedCall table) :
    call.plain.map table.decode = call.item := by
  rw [NumberedCall.item, FrameTable.frameAt_eq_decode]
  rfl

/-- The n-grams of a group are its first call with each of the further calls. -/
theorem NumberedGroup.mem_ngrams {group : NumberedGroup table} {ngram : Ngram} :
    ngram ∈ group.ngrams ↔
      ∃ tail ∈ group.plain.2, (⟨group.plain.1, tail⟩ : Ngram Nat).map table.decode = ngram := by
  have hitem : ∀ tail : List (NumberedCall table),
      (⟨group.head.plain, tail.map NumberedCall.plain⟩ : Ngram Nat).map table.decode =
        ⟨group.head.item, tail.map NumberedCall.item⟩ := by
    intro tail
    simp [Ngram.map, NumberedCall.map_decode_plain]
  simp [ngrams, plain, hitem]

/-- A call whose frame the table has. -/
theorem exists_plain {item : GramItem Nat} (h : item.frame < table.frames.size) :
    ∃ call : NumberedCall table, call.plain = item :=
  ⟨⟨item.target, ⟨item.frame, h⟩⟩, rfl⟩

end Plain

namespace NumberedSet

variable {numbered : NumberedSet} {found : NgramSet}

/-- The first calls of a set, each with the list of its further calls. -/
def entries (numbered : NumberedSet) : List (GramItem Nat × List (List (GramItem Nat))) :=
  numbered.grams.toList.map fun entry => (entry.1, entry.2.toList)

/-- A set has one entry for each of its first calls. -/
theorem mem_entries {entry : GramItem Nat × List (List (GramItem Nat))} :
    entry ∈ numbered.entries ↔
      ∃ tails, numbered.grams[entry.1]? = some tails ∧ tails.toList = entry.2 := by
  rw [entries, List.mem_map]
  constructor
  · rintro ⟨⟨head, tails⟩, hmem, rfl⟩
    exact ⟨tails, Std.TreeMap.mem_toList_iff_getElem?_eq_some.mp hmem, rfl⟩
  · rintro ⟨tails, hget, htails⟩
    exact ⟨(entry.1, tails), Std.TreeMap.mem_toList_iff_getElem?_eq_some.mpr hget,
      Prod.ext rfl htails⟩

/-- No first call has two entries. -/
theorem nodup_map_fst_entries : (numbered.entries.map Prod.fst).Nodup := by
  rw [entries, List.map_map, Function.comp_def, Std.TreeMap.map_fst_toList_eq_keys]
  exact Std.TreeMap.nodup_keys

/-- The n-grams of a set are listed with their first calls. -/
theorem contains_iff_entries {ngram : Ngram Nat} : numbered.contains ngram = true ↔
    ∃ entry ∈ numbered.entries, entry.1 = ngram.head ∧ ngram.tail ∈ entry.2 := by
  rw [contains, tails]
  constructor
  · intro hngram
    cases hget : numbered.grams[ngram.head]? with
    | none => simp [hget] at hngram
    | some tails =>
      refine ⟨(ngram.head, tails.toList), mem_entries.mpr ⟨tails, hget, rfl⟩, rfl, ?_⟩
      simpa [hget] using hngram
  · rintro ⟨entry, hentry, hhead, htail⟩
    obtain ⟨tails, hget, htails⟩ := mem_entries.mp hentry
    rw [← hhead, hget, Option.getD_some]
    rw [← htails] at htail
    simpa using htail

/-- A set is rendered entry by entry, in the order of the keys. -/
theorem render_eq (numbered : NumberedSet) : numbered.render =
    (numbered.entries.mergeSort fun a b =>
      (compare (numbered.headKey a.1) (numbered.headKey b.1)).isLE).map fun entry =>
        numbered.renderTails entry.1 entry.2 := by
  rw [render, entries, ← List.map_mergeSort (r := fun a b =>
    (compare (numbered.headKey a.1) (numbered.headKey b.1)).isLE) fun _ _ _ _ => rfl,
    List.map_map]
  rfl

/-- All n-grams of a set. -/
def ngrams (numbered : NumberedSet) : List (Ngram Nat) :=
  numbered.entries.flatMap fun entry => entry.2.map fun tail => ⟨entry.1, tail⟩

/-- All n-grams that a set contains are listed. -/
theorem mem_ngrams {ngram : Ngram Nat} :
    ngram ∈ numbered.ngrams ↔ numbered.contains ngram = true := by
  obtain ⟨head, tail⟩ := ngram
  rw [contains_iff_entries, ngrams, List.mem_flatMap]
  refine exists_congr fun entry => and_congr_right fun _ => ?_
  simp [and_comm]

/-- No n-gram is listed twice. -/
theorem nodup_ngrams : numbered.ngrams.Nodup := by
  rw [ngrams, List.nodup_flatMap]
  refine ⟨fun entry hentry => ?_, ?_⟩
  · obtain ⟨tails, -, htails⟩ := mem_entries.mp hentry
    rw [← htails]
    have hnodup : tails.toList.Nodup := Ascending.nodup Std.TreeSet.ordered_toList
    exact hnodup.map fun tail tail' heq => (Ngram.mk.inj heq).2
  · have hkeys := numbered.nodup_map_fst_entries
    rw [List.Nodup, List.pairwise_map] at hkeys
    refine hkeys.imp fun {entry entry'} hne => ?_
    intro ngram hngram hngram'
    obtain ⟨tail, -, rfl⟩ := List.mem_map.mp hngram
    obtain ⟨tail', -, heq⟩ := List.mem_map.mp hngram'
    exact hne (Ngram.mk.inj heq).1.symm

theorem size_eq_length (numbered : NumberedSet) : numbered.size = numbered.ngrams.length := by
  rw [size, ← List.sum_eq_foldl, ngrams, entries, List.length_flatMap, List.map_map]
  simp [Function.comp_def]

theorem step_plain (call : NumberedCall numbered.table) :
    numbered.step call.plain = call.step := by
  rw [step, NumberedCall.step, NumberedCall.plain, FrameTable.frame_eq (FrameTable.get?_fin _)]

/-- Entries and groups are rendered in the same way. -/
theorem renderTails_plain (group : NumberedGroup numbered.table) :
    numbered.renderTails group.plain.1 group.plain.2 = group.render := by
  have hsteps : ∀ tail : List (NumberedCall numbered.table),
      (group.head.plain :: tail.map NumberedCall.plain).map numbered.step =
        (group.head :: tail).map NumberedCall.step := by
    intro tail
    simp [step_plain]
  simp only [renderTails, NumberedGroup.render, NumberedGroup.plain, List.map_map,
    Function.comp_def, hsteps]

namespace Holds

/-- The first calls of a set can be given with the proofs that the table has all frames. -/
theorem exists_groups (h : numbered.Holds found) :
    ∃ groups : List (NumberedGroup numbered.table),
      groups.map NumberedGroup.plain = numbered.entries := by
  apply exists_map_eq
  rintro ⟨head, tails⟩ hentry
  obtain ⟨set, hget, htails⟩ := mem_entries.mp hentry
  have hlt : ∀ tail ∈ tails, ∀ item ∈ head :: tail,
      item.frame < numbered.table.frames.size := fun tail htail =>
    h.lt_size ⟨head, tail⟩ (contains_iff_entries.mpr ⟨_, hentry, rfl, htail⟩)
  obtain ⟨tail, htail⟩ := h.nonempty head set hget
  have hmem : tail ∈ tails := by
    rw [← show set.toList = tails from htails]
    simpa using htail
  obtain ⟨call, hcall⟩ := exists_plain (hlt tail hmem head List.mem_cons_self)
  have hcalls : ∀ tail ∈ tails, ∃ calls : List (NumberedCall numbered.table),
      calls.map NumberedCall.plain = tail := by
    intro tail htail
    apply exists_map_eq
    intro item hitem
    exact exists_plain (hlt tail htail item (List.mem_cons_of_mem _ hitem))
  obtain ⟨groups, hgroups⟩ := exists_map_eq hcalls
  exact ⟨⟨call, groups⟩, Prod.ext hcall hgroups⟩

/-- The groups hold the n-grams of the other set. -/
theorem heldBy (h : numbered.Holds found) {groups : List (NumberedGroup numbered.table)}
    (hgroups : groups.map NumberedGroup.plain = numbered.entries) : found.HeldBy groups := by
  refine ⟨?_, ?_, fun ngram => ?_⟩
  · have hkeys := numbered.nodup_map_fst_entries
    rw [← hgroups, List.map_map] at hkeys
    apply List.Nodup.of_map NumberedCall.plain
    rwa [List.map_map]
  · intro group hgroup hnil
    have hentry : group.plain ∈ numbered.entries := hgroups ▸ List.mem_map_of_mem hgroup
    obtain ⟨tails, hget, htails⟩ := mem_entries.mp hentry
    obtain ⟨tail, htail⟩ := h.nonempty _ tails hget
    have hmem : tail ∈ tails.toList := by simpa using htail
    rw [htails, NumberedGroup.plain, hnil] at hmem
    cases hmem
  · rw [h.mem]
    constructor
    · rintro ⟨⟨head, tail⟩, hother, rfl⟩
      obtain ⟨entry, hentry, rfl, htail⟩ := contains_iff_entries.mp hother
      rw [← hgroups] at hentry
      obtain ⟨group, hgroup, rfl⟩ := List.mem_map.mp hentry
      exact ⟨group, hgroup, NumberedGroup.mem_ngrams.mpr ⟨tail, htail, rfl⟩⟩
    · rintro ⟨group, hgroup, hngram⟩
      obtain ⟨tail, htail, rfl⟩ := NumberedGroup.mem_ngrams.mp hngram
      exact ⟨⟨group.plain.1, tail⟩, contains_iff_entries.mpr
        ⟨group.plain, hgroups ▸ List.mem_map_of_mem hgroup, rfl, htail⟩, rfl⟩

/-- Sets that hold the same n-grams are rendered in the same way. -/
theorem render_eq (h : numbered.Holds found) : numbered.render = found.render := by
  obtain ⟨groups, hgroups⟩ := h.exists_groups
  rw [← (h.heldBy hgroups).renderGroups_eq h.built.consed, NumberedSet.render_eq, ← hgroups,
    renderGroups, ← List.map_mergeSort (r := fun a b => (compare a.head.key b.head.key).isLE)
      fun _ _ _ _ => rfl, List.map_map]
  exact List.map_congr_left fun group _ => renderTails_plain group

/-- Sets that hold the same n-grams have the same size: different n-grams with numbers stand for
different ones. -/
theorem size_eq (h : numbered.Holds found) : numbered.size = found.size := by
  have hnodup : (numbered.ngrams.map (Ngram.map numbered.table.decode)).Nodup := by
    refine nodup_ngrams.map_on fun ngram hngram other hother heq => ?_
    rw [mem_ngrams] at hngram hother
    exact map_decode_inj h.built.consed (h.lt_size ngram hngram) (h.lt_size other hother) heq
  have hperm : (numbered.ngrams.map (Ngram.map numbered.table.decode)).Perm found.toList := by
    rw [List.perm_ext_iff_of_nodup hnodup found.ascending_toList.nodup]
    intro ngram
    simp only [List.mem_map, mem_ngrams, h.mem]
  rw [size_eq_length, ← List.length_map (Ngram.map numbered.table.decode), hperm.length_eq]
  exact Std.TreeSet.length_toList

end Holds

end NumberedSet

/-- A search with numbered frames and one with whole call stacks have the same outcome. They fail
with the same error, or the n-grams that the one finds are those of the other with the frames behind
their numbers; they are as many, and they are rendered in the same way. -/
theorem numbered_ngrams_exact (depth : Nat) (graphs : GraphTable) (policy : DigPolicy)
    (options : SearchOptions) (root : MethodKey) :
    SameOutcome (fun numbered found => numbered.Holds found ∧ numbered.size = found.size ∧
        numbered.render = found.render)
      (Search.Numbered.ngramsWithin depth graphs policy options root)
      (ngramsWithin depth graphs policy options root) ∧
    ∀ indices,
      SameOutcome (fun numbered found => numbered.Holds found ∧ numbered.size = found.size ∧
          numbered.render = found.render)
        (Search.Numbered.ngramsFromWithin depth graphs policy options root indices)
        (ngramsFromWithin depth graphs policy options root indices) :=
  ⟨(ngramsWithin_same depth graphs policy options root).imp fun _ _ h =>
    ⟨h, h.size_eq, h.render_eq⟩,
    fun indices => (ngramsFromWithin_same depth graphs policy options root indices).imp
      fun _ _ h => ⟨h, h.size_eq, h.render_eq⟩⟩

end CallNgrams
