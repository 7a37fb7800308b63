import CallNgrams.Proofs.Ascending
import CallNgrams.Proofs.Search.FrameTable
import CallNgrams.Proofs.Search.Rendered
import Mathlib.Data.Set.List
import Std.Data.String.ToNat

/-!
# Canonical renderings

A set of n-grams may be kept with numbered frames, by first call and in any order. Sorting the first
calls by target and call stack, and the rendered n-grams of each, leads to one and the same
rendering, whatever the numbers and the order. No n-gram is rendered twice: the first calls of a
search are made in one method without callers, where the index tells them apart.
-/

namespace CallNgrams

/-! ## Groups of n-grams -/

namespace NgramSet

variable {set : NgramSet} {heads : List GramItem}

theorem ascending_toList (set : NgramSet) : Ascending set.toList :=
  Std.TreeSet.ordered_toList

/-- A rendered group is in order and lists each n-gram once. -/
theorem ascending_renderGroup (ngrams : List Ngram) : Ascending (renderGroup ngrams) :=
  ascending_eraseReps_mergeSort _

/-- The rendered form of a group does not depend on its order. -/
theorem renderGroup_congr {ngrams ngrams' : List Ngram}
    (h : ∀ ngram, ngram ∈ ngrams ↔ ngram ∈ ngrams') : renderGroup ngrams = renderGroup ngrams' := by
  apply (ascending_renderGroup ngrams).eq_of_mem_iff (ascending_renderGroup ngrams')
  intro rendered
  simp only [mem_renderGroup, h]

/-- The n-grams of a set with the given first call. -/
def startingWith (set : NgramSet) (head : GramItem) : List Ngram :=
  set.toList.filter fun ngram => ngram.head == head

theorem mem_startingWith {head : GramItem} {ngram : Ngram} :
    ngram ∈ set.startingWith head ↔ ngram ∈ set.toList ∧ ngram.head = head := by
  rw [startingWith, List.mem_filter, beq_iff_eq]

/-- N-grams are ordered by their first calls before all else. -/
theorem compare_lt_of_head {a b : Ngram} (h : compare a.head b.head = .lt) :
    compare a b = .lt := by
  change (compare a.head b.head).then (compare a.tail b.tail) = .lt
  rw [h]
  rfl

/-- A list of the first calls of the n-grams of a set. -/
structure Heads (set : NgramSet) (heads : List GramItem) : Prop where
  ascending : Ascending heads
  mem (head : GramItem) : head ∈ heads ↔ ∃ ngram ∈ set.toList, ngram.head = head

/-- Every set has a list of its first calls. -/
theorem exists_heads (set : NgramSet) : ∃ heads, set.Heads heads := by
  refine ⟨_, ascending_eraseReps_mergeSort (set.toList.map Ngram.head), fun head => ?_⟩
  rw [mem_eraseReps, List.mem_mergeSort, List.mem_map]

namespace Heads

theorem startingWith_ne_nil (h : set.Heads heads) {head : GramItem} (hhead : head ∈ heads) :
    set.startingWith head ≠ [] := by
  obtain ⟨ngram, hngram, heq⟩ := (h.mem head).mp hhead
  exact List.ne_nil_of_mem (mem_startingWith.mpr ⟨hngram, heq⟩)

/-- The n-grams of a set, in order, are those of one first call after the other. -/
theorem flatten_startingWith (h : set.Heads heads) :
    set.toList = (heads.map set.startingWith).flatten := by
  apply set.ascending_toList.eq_of_mem_iff
  · rw [Ascending, List.pairwise_flatten, List.pairwise_map]
    refine ⟨?_, List.Pairwise.imp ?_ h.ascending⟩
    · intro group hgroup
      obtain ⟨head, -, rfl⟩ := List.mem_map.mp hgroup
      exact set.ascending_toList.sublist List.filter_sublist
    · intro head head' hlt a ha b hb
      apply compare_lt_of_head
      rwa [(mem_startingWith.mp ha).2, (mem_startingWith.mp hb).2]
  · intro ngram
    rw [← List.flatMap_def, List.mem_flatMap]
    simp only [mem_startingWith, h.mem]
    constructor
    · intro hngram
      exact ⟨ngram.head, ⟨ngram, hngram, rfl⟩, hngram, rfl⟩
    · rintro ⟨_, -, hngram, -⟩
      exact hngram

/-- There is one group for each first call, and the first calls ascend. -/
theorem groups_eq (h : set.Heads heads) : set.groups = heads.map set.startingWith := by
  rw [groups, List.splitBy_eq_iff]
  refine ⟨h.flatten_startingWith, ?_, ?_, ?_⟩
  · intro hnil
    obtain ⟨head, hhead, hnil⟩ := List.mem_map.mp hnil
    exact h.startingWith_ne_nil hhead hnil
  · intro group hgroup
    obtain ⟨head, -, rfl⟩ := List.mem_map.mp hgroup
    apply List.Pairwise.isChain
    apply List.pairwise_of_forall_mem_list
    intro a ha b hb
    simp [(mem_startingWith.mp ha).2, (mem_startingWith.mp hb).2]
  · apply List.Pairwise.isChain
    rw [List.pairwise_map]
    apply h.ascending.imp_of_mem
    intro head head' hhead hhead' hlt
    have hlast := mem_startingWith.mp (List.getLast_mem (h.startingWith_ne_nil hhead))
    have hfirst := mem_startingWith.mp (List.head_mem (h.startingWith_ne_nil hhead'))
    refine ⟨h.startingWith_ne_nil hhead, h.startingWith_ne_nil hhead', ?_⟩
    rw [hlast.2, hfirst.2, beq_eq_false_iff_ne]
    rintro rfl
    simp [Std.compare_self] at hlt

/-- So a set is rendered first call by first call. -/
theorem render_eq (h : set.Heads heads) :
    set.render = heads.map fun head => renderGroup (set.startingWith head) := by
  rw [render, h.groups_eq, List.map_map]
  rfl

end Heads

end NgramSet

/-! ## Numbered frames -/

theorem FramePlace.compare_eq (place place' : FramePlace) : compare place place' =
    (compare place.point place'.point).then (compare place.depth place'.depth) :=
  rfl

theorem Frame.compare_eq (frame frame' : Frame) : compare frame frame' =
    (compare frame.point frame'.point).then
      ((compare frame.depth frame'.depth).then (compare frame.callers frame'.callers)) :=
  rfl

/-- Call stacks are ordered as frames are: where depths agree, those of the callers do as well. -/
theorem Frame.compare_places (frame frame' : Frame) :
    compare (frame.stack.map Frame.place) (frame'.stack.map Frame.place) =
      compare frame frame' := by
  obtain ⟨point, callers⟩ := frame
  obtain ⟨point', callers'⟩ := frame'
  induction callers generalizing point point' callers' with
  | nil =>
    cases callers' with
    | nil => simp [place, depth, FramePlace.compare_eq, Frame.compare_eq]
    | cons caller' callers' =>
      have hdepth : compare 0 (callers'.length + 1) = .lt := Nat.compare_eq_lt.mpr (by omega)
      simp [place, depth, FramePlace.compare_eq, Frame.compare_eq, hdepth, Ordering.then_assoc]
  | cons caller callers ih =>
    cases callers' with
    | nil =>
      have hdepth : compare (callers.length + 1) 0 = .gt := Nat.compare_eq_gt.mpr (by omega)
      simp [place, depth, FramePlace.compare_eq, Frame.compare_eq, hdepth, Ordering.then_assoc]
    | cons caller' callers' =>
      have hdepth : compare callers.length callers'.length =
          compare (callers.length + 1) (callers'.length + 1) := by
        simp [Nat.compare_eq_ite_lt]
      simp only [stack_cons, List.map_cons, List.compare_cons_cons, ih, place, depth,
        FramePlace.compare_eq, Frame.compare_eq, List.length_cons, hdepth]
      cases compare (callers.length + 1) (callers'.length + 1) <;> simp [Ordering.then_assoc]

/-- A call whose frame is given by its number in a table. -/
structure NumberedCall (table : FrameTable) where
  target : CallTarget
  frame : Fin table.frames.size
deriving DecidableEq

/-- A first call and, in any order, the further calls of the n-grams that start with it. -/
structure NumberedGroup (table : FrameTable) where
  head : NumberedCall table
  tails : List (List (NumberedCall table))

section Numbered

variable {table : FrameTable}

namespace NumberedCall

/-- The call with its frame. -/
def item (call : NumberedCall table) : GramItem :=
  ⟨call.target, table.frameAt call.frame⟩

/-- The rendered form of a call. -/
def step (call : NumberedCall table) : GramStep :=
  ⟨call.target.label, table.frames[call.frame].point.text, table.frames[call.frame].depth⟩

/-- The target of a call and the places of its frame and callers. -/
def key (call : NumberedCall table) : HeadKey :=
  ⟨call.target, (table.chain call.frame).map NumberedFrame.place⟩

variable {call call' : NumberedCall table}

/-- The number of a frame is enough to render a call. -/
theorem step_item (h : table.Consed) (call : NumberedCall table) : call.item.step = call.step := by
  rw [GramItem.step, item, h.depth_frameAt]
  rfl

/-- Calls with the same frame have the same number, since no frame has two. -/
theorem item_inj (h : table.Consed) (heq : call.item = call'.item) : call = call' := by
  obtain ⟨target, id⟩ := call
  obtain ⟨target', id'⟩ := call'
  obtain rfl : target = target' := congrArg GramItem.target heq
  obtain rfl : id = id' := h.frameAt_inj (congrArg GramItem.frame heq)
  rfl

/-- The places of a frame and its callers are in the order of the frames. -/
theorem compare_key (h : table.Consed) (call call' : NumberedCall table) :
    compare call.key call'.key = compare call.item call'.item := by
  change (compare call.target call'.target).then (compare call.key.places call'.key.places) =
    (compare call.target call'.target).then (compare call.item.frame call'.item.frame)
  rw [key, key, h.places_chain, h.places_chain, Frame.compare_places]
  rfl

end NumberedCall

namespace NumberedGroup

/-- The n-grams of a group. -/
def ngrams (group : NumberedGroup table) : List Ngram :=
  group.tails.map fun tail => ⟨group.head.item, tail.map NumberedCall.item⟩

/-- The rendered n-grams of a group, in ascending order and each once. -/
def render (group : NumberedGroup table) : List RenderedNgram :=
  ((group.tails.map fun tail => (group.head :: tail).map NumberedCall.step).mergeSort
    fun a b => (compare a b).isLE).eraseReps

/-- A group is rendered by its numbers as it is by its frames. -/
theorem renderGroup_ngrams (h : table.Consed) (group : NumberedGroup table) :
    NgramSet.renderGroup group.ngrams = group.render := by
  have hrender (tail : List (NumberedCall table)) :
      (⟨group.head.item, tail.map NumberedCall.item⟩ : Ngram).render =
        (group.head :: tail).map NumberedCall.step := by
    simp [Ngram.render, Ngram.toList, NumberedCall.step_item h]
  rw [NgramSet.renderGroup, ngrams, List.map_map]
  simp only [Function.comp_def, hrender]
  rfl

end NumberedGroup

/-- The rendered n-grams by first call, sorted by target and call stack. -/
def renderGroups (groups : List (NumberedGroup table)) : List (List RenderedNgram) :=
  (groups.mergeSort fun a b => (compare a.head.key b.head.key).isLE).map NumberedGroup.render

/-- Groups hold the n-grams of a set: no first call has two groups or an empty one. -/
structure NgramSet.HeldBy (set : NgramSet) (groups : List (NumberedGroup table)) : Prop where
  heads : (groups.map NumberedGroup.head).Nodup
  tails : ∀ group ∈ groups, group.tails ≠ []
  mem (ngram : Ngram) : ngram ∈ set.toList ↔ ∃ group ∈ groups, ngram ∈ group.ngrams

theorem NumberedGroup.head_of_mem_ngrams {group : NumberedGroup table} {ngram : Ngram}
    (h : ngram ∈ group.ngrams) : ngram.head = group.head.item := by
  obtain ⟨tail, -, rfl⟩ := List.mem_map.mp h
  rfl

namespace NgramSet.HeldBy

variable {set : NgramSet} {groups : List (NumberedGroup table)}

/-- The n-grams of a group are those of the set that start with its first call. -/
theorem mem_ngrams_iff (h : set.HeldBy groups) (htable : table.Consed)
    {group : NumberedGroup table} (hgroup : group ∈ groups) (ngram : Ngram) :
    ngram ∈ group.ngrams ↔ ngram ∈ set.startingWith group.head.item := by
  rw [mem_startingWith, h.mem]
  constructor
  · intro hngram
    exact ⟨⟨group, hgroup, hngram⟩, NumberedGroup.head_of_mem_ngrams hngram⟩
  · rintro ⟨⟨other, hother, hngram⟩, hhead⟩
    have hsame : other.head = group.head := by
      apply NumberedCall.item_inj htable
      rw [← NumberedGroup.head_of_mem_ngrams hngram, hhead]
    rwa [← List.inj_on_of_nodup_map h.heads hother hgroup hsame]

/-- Sorting the groups by target and call stack sorts the first calls of the set. -/
theorem heads_mergeSort (h : set.HeldBy groups) (htable : table.Consed) :
    set.Heads ((groups.mergeSort fun a b =>
      (compare a.head.item b.head.item).isLE).map fun group => group.head.item) := by
  have hperm := List.mergeSort_perm groups fun a b => (compare a.head.item b.head.item).isLE
  refine ⟨?_, fun head => ?_⟩
  · have hsorted := pairwise_mergeSort_key (fun group => group.head.item) groups
    have hnodup := (hperm.map NumberedGroup.head).nodup_iff.mpr h.heads
    rw [List.Nodup, List.pairwise_map] at hnodup
    rw [Ascending, List.pairwise_map]
    apply List.Pairwise.imp₂ _ hsorted hnodup
    intro group group' hle hne
    exact lt_of_isLE_of_ne hle fun heq => hne (NumberedCall.item_inj htable heq)
  · simp only [List.mem_map, hperm.mem_iff, h.mem]
    constructor
    · rintro ⟨group, hgroup, rfl⟩
      obtain ⟨tail, htail⟩ := List.exists_mem_of_ne_nil _ (h.tails group hgroup)
      exact ⟨_, ⟨group, hgroup, List.mem_map_of_mem htail⟩, rfl⟩
    · rintro ⟨ngram, ⟨group, hgroup, hngram⟩, rfl⟩
      exact ⟨group, hgroup, (NumberedGroup.head_of_mem_ngrams hngram).symm⟩

/-- Neither the numbers of the frames nor the order of the n-grams shows in the rendering. -/
theorem renderGroups_eq (h : set.HeldBy groups) (htable : table.Consed) :
    renderGroups groups = set.render := by
  simp only [renderGroups, NumberedCall.compare_key htable]
  rw [(h.heads_mergeSort htable).render_eq, List.map_map]
  apply List.map_congr_left
  intro group hgroup
  rw [← NumberedGroup.renderGroup_ngrams htable]
  exact renderGroup_congr (h.mem_ngrams_iff htable (List.mem_mergeSort.mp hgroup))

end NgramSet.HeldBy

/-- A list of values of a function has a list of arguments. -/
theorem exists_map_eq {α β : Type} {f : α → β} {ys : List β} (h : ∀ y ∈ ys, ∃ x, f x = y) :
    ∃ xs : List α, xs.map f = ys := by
  have hrange : ys ∈ Set.range (List.map f) := by
    rw [Set.range_list_map]
    exact h
  exact hrange

/-- The n-grams with the same first call make a group once their frames are numbered. -/
theorem NgramSet.exists_group {set : NgramSet} {head : GramItem}
    (h : ∀ ngram ∈ set.toList, ∀ item ∈ ngram.toList, table.Numbers item.frame)
    (hhead : set.startingWith head ≠ []) :
    ∃ group : NumberedGroup table,
      (group.head.item, group.ngrams) = (head, set.startingWith head) := by
  have hcall {ngram : Ngram} (hngram : ngram ∈ set.toList) {item : GramItem}
      (hitem : item ∈ ngram.toList) : ∃ call : NumberedCall table, call.item = item := by
    obtain ⟨id, hid⟩ := h ngram hngram item hitem
    exact ⟨⟨item.target, id⟩, by rw [NumberedCall.item, hid]⟩
  obtain ⟨first, hfirst⟩ := List.exists_mem_of_ne_nil _ hhead
  obtain ⟨hmem, rfl⟩ := mem_startingWith.mp hfirst
  obtain ⟨call, hitem⟩ := hcall hmem List.mem_cons_self
  have htails : ∀ tail ∈ (set.startingWith first.head).map Ngram.tail,
      ∃ calls : List (NumberedCall table), calls.map NumberedCall.item = tail := by
    intro tail htail
    obtain ⟨ngram, hngram, rfl⟩ := List.mem_map.mp htail
    apply exists_map_eq
    intro item hitem
    exact hcall (mem_startingWith.mp hngram).1 (List.mem_cons_of_mem _ hitem)
  obtain ⟨tails, heq⟩ := exists_map_eq htails
  refine ⟨⟨call, tails⟩, Prod.ext hitem ?_⟩
  calc
    tails.map (fun tail => (⟨call.item, tail.map NumberedCall.item⟩ : Ngram)) =
        (tails.map (List.map NumberedCall.item)).map (Ngram.mk call.item) := by
      rw [List.map_map]
      rfl
    _ = (set.startingWith first.head).map fun ngram => ⟨first.head, ngram.tail⟩ := by
      rw [heq, List.map_map, hitem]
      rfl
    _ = set.startingWith first.head := by
      have hsame : ∀ ngram ∈ set.startingWith first.head,
          (⟨first.head, ngram.tail⟩ : Ngram) = id ngram := by
        intro ngram hngram
        rw [← (mem_startingWith.mp hngram).2]
        rfl
      rw [List.map_congr_left hsame, List.map_id]

/-- Every set of n-grams can be held by groups with numbered frames. -/
theorem NgramSet.exists_heldBy (set : NgramSet) :
    ∃ (table : FrameTable) (groups : List (NumberedGroup table)),
      table.Built ∧ set.HeldBy groups := by
  obtain ⟨table, hbuilt, hframes⟩ := FrameTable.exists_built_numbers
    (set.toList.flatMap fun ngram => ngram.toList.map GramItem.frame)
  obtain ⟨heads, hheads⟩ := set.exists_heads
  have hgroups : ∀ pair ∈ heads.map fun head => (head, set.startingWith head),
      ∃ group : NumberedGroup table, (group.head.item, group.ngrams) = pair := by
    intro pair hpair
    obtain ⟨head, hhead, rfl⟩ := List.mem_map.mp hpair
    refine exists_group (fun ngram hngram item hitem => hframes item.frame ?_)
      (hheads.startingWith_ne_nil hhead)
    exact List.mem_flatMap.mpr ⟨ngram, hngram, List.mem_map_of_mem hitem⟩
  obtain ⟨groups, heq⟩ := exists_map_eq hgroups
  have hfirst : groups.map (fun group => group.head.item) = heads := by
    simpa [Function.comp_def] using congrArg (List.map Prod.fst) heq
  have hngrams : groups.map NumberedGroup.ngrams = heads.map set.startingWith := by
    simpa [Function.comp_def] using congrArg (List.map Prod.snd) heq
  refine ⟨table, groups, hbuilt, ?_, ?_, ?_⟩
  · apply List.Nodup.of_map NumberedCall.item
    rw [List.map_map]
    exact hfirst ▸ hheads.ascending.nodup
  · intro group hgroup hnil
    have hempty : group.ngrams ∈ heads.map set.startingWith :=
      hngrams ▸ List.mem_map_of_mem hgroup
    obtain ⟨head, hhead, hsame⟩ := List.mem_map.mp hempty
    apply hheads.startingWith_ne_nil hhead
    rw [hsame, NumberedGroup.ngrams, hnil, List.map_nil]
  · intro ngram
    rw [hheads.flatten_startingWith, ← hngrams, ← List.flatMap_def, List.mem_flatMap]

end Numbered

/-! ## Rendered searches -/

/-- A group is not empty and ascends, and its n-grams start with the same step. -/
structure WellGrouped (group : List RenderedNgram) : Prop where
  nonempty : group ≠ []
  ascending : Ascending group
  first : ∃ step, ∀ rendered ∈ group, rendered.head? = some step

/-- Every rendered group is well grouped. -/
theorem NgramSet.wellGrouped_of_mem_render {set : NgramSet} {group : List RenderedNgram}
    (h : group ∈ set.render) : WellGrouped group := by
  obtain ⟨heads, hheads⟩ := set.exists_heads
  rw [hheads.render_eq] at h
  obtain ⟨head, hhead, rfl⟩ := List.mem_map.mp h
  refine ⟨?_, ascending_renderGroup _, head.step, ?_⟩
  · obtain ⟨ngram, hngram⟩ := List.exists_mem_of_ne_nil _ (hheads.startingWith_ne_nil hhead)
    exact List.ne_nil_of_mem (mem_renderGroup.mpr ⟨ngram, hngram, rfl⟩)
  · intro rendered hrendered
    obtain ⟨ngram, hngram, rfl⟩ := mem_renderGroup.mp hrendered
    rw [← (mem_startingWith.mp hngram).2]
    rfl

section Search

variable {graphs : GraphTable} {policy : DigPolicy} {options : SearchOptions} {root : MethodKey}
  {found : NgramSet}

/-- A program point calls one target only. -/
theorem GraphTable.CallsAt.unique {point : ProgramPoint} {target target' : CallTarget}
    (h : graphs.CallsAt point target) (h' : graphs.CallsAt point target') : target = target' := by
  obtain ⟨graph, node, hget, hnode, hcall⟩ := h
  obtain ⟨graph', node', hget', hnode', hcall'⟩ := h'
  have hgraph : graph = graph' := Option.some.inj (hget.symm.trans hget')
  rw [← hgraph] at hnode'
  have hsame : node = node' := Option.some.inj (hnode.symm.trans hnode')
  rw [← hsame] at hcall'
  exact Command.call.inj (hcall.symm.trans hcall')

/-- The text of a program point tells the indices of a method apart. -/
theorem ProgramPoint.eq_of_text {point point' : ProgramPoint}
    (hmethod : point.method = point'.method) (htext : point.text = point'.text) :
    point = point' := by
  obtain ⟨method, index⟩ := point
  obtain ⟨method', index'⟩ := point'
  obtain rfl : method = method' := hmethod
  have hindex : toString index = toString index' := (String.append_right_inj _).mp htext
  rw [Nat.repr_inj.mp hindex]

/-- The first calls of n-grams are told apart by their rendered forms. -/
theorem Ngram.Provenance.head_eq_of_step {ngram ngram' : Ngram}
    (h : ngram.Provenance graphs policy options root)
    (h' : ngram'.Provenance graphs policy options root)
    (hstep : ngram.head.step = ngram'.head.step) : ngram.head = ngram'.head := by
  obtain ⟨-, hcallers, hmethod⟩ := h.head
  obtain ⟨-, hcallers', hmethod'⟩ := h'.head
  have hpoint : ngram.head.frame.point = ngram'.head.frame.point :=
    ProgramPoint.eq_of_text (hmethod.trans hmethod'.symm) (congrArg GramStep.location hstep)
  have hsite := h.site ngram.head List.mem_cons_self
  have hsite' := h'.site ngram'.head List.mem_cons_self
  rw [hpoint] at hsite
  have htarget := hsite.unique hsite'
  obtain ⟨⟨target, point, callers⟩, tail⟩ := ngram
  obtain ⟨⟨target', point', callers'⟩, tail'⟩ := ngram'
  simp_all

/-- No two n-grams with a provenance are rendered alike. -/
theorem nodup_flatten_render
    (h : ∀ ngram ∈ found.toList, ngram.Provenance graphs policy options root) :
    found.render.flatten.Nodup := by
  obtain ⟨heads, hheads⟩ := found.exists_heads
  rw [hheads.render_eq, List.nodup_flatten, List.pairwise_map]
  refine ⟨?_, hheads.ascending.imp ?_⟩
  · intro group hgroup
    obtain ⟨head, -, rfl⟩ := List.mem_map.mp hgroup
    exact (NgramSet.ascending_renderGroup _).nodup
  · intro head head' hlt rendered hrendered hrendered'
    obtain ⟨ngram, hngram, rfl⟩ := NgramSet.mem_renderGroup.mp hrendered
    obtain ⟨ngram', hngram', hsame⟩ := NgramSet.mem_renderGroup.mp hrendered'
    obtain ⟨hmem, rfl⟩ := NgramSet.mem_startingWith.mp hngram
    obtain ⟨hmem', rfl⟩ := NgramSet.mem_startingWith.mp hngram'
    have hstep : ngram.head.step = ngram'.head.step := (List.cons.inj hsame).1.symm
    rw [(h ngram hmem).head_eq_of_step (h ngram' hmem') hstep, Std.compare_self] at hlt
    cases hlt

/-- The n-grams that a search finds have one rendering: their frames can be numbered, and it is the
same for every numbering and every order of the n-grams. Its groups are not empty and ascend, the
n-grams of a group start with the same step, and no n-gram is rendered twice. -/
theorem render_canonical
    (hfound : ngrams graphs policy options root = .ok found ∨
      ∃ indices, ngramsFrom graphs policy options root indices = .ok found) :
    (∃ (table : FrameTable) (groups : List (NumberedGroup table)),
        table.Built ∧ found.HeldBy groups) ∧
      (∀ (table : FrameTable) (groups : List (NumberedGroup table)), table.Built →
        found.HeldBy groups → renderGroups groups = found.render) ∧
      (∀ group ∈ found.render, WellGrouped group) ∧ found.render.flatten.Nodup := by
  have hprovenance : ∀ ngram ∈ found.toList, ngram.Provenance graphs policy options root := by
    rcases hfound with hrun | ⟨indices, hrun⟩
    · exact provenance_of_ngrams hrun
    · exact fun ngram hngram => (provenance_of_ngramsFrom hrun ngram hngram).1
  refine ⟨found.exists_heldBy, ?_, fun _ => NgramSet.wellGrouped_of_mem_render,
    nodup_flatten_render hprovenance⟩
  intro table groups htable hheld
  exact hheld.renderGroups_eq htable.consed

end Search

/-- The frames of the calls in `loopProgram`, with the second call of the loop first. -/
def loopTable : FrameTable :=
  let second := (FrameTable.empty.intern none ⟨loopMethod, 1⟩).2
  let inner := (second.intern (some 0) ⟨innerMethod, 0⟩).2
  (inner.intern none ⟨loopMethod, 0⟩).2

theorem loopTable_built : loopTable.Built := by
  have hsecond : (FrameTable.empty.intern none ⟨loopMethod, 1⟩).2.Built :=
    .intern _ .empty (by simp)
  have hinner := FrameTable.Built.intern ⟨innerMethod, 0⟩ hsecond
    (by decide +kernel : ∀ id ∈ some 0, id < _)
  exact .intern ⟨loopMethod, 0⟩ hinner (by simp)

/-- The pairs of calls from both calls of the loop, out of order. -/
def loopGroups : List (NumberedGroup loopTable) :=
  let first : NumberedCall loopTable := ⟨⟨some "t/A", "a:()V"⟩, ⟨2, by decide +kernel⟩⟩
  let second : NumberedCall loopTable := ⟨⟨some "t/A", "b:()V"⟩, ⟨0, by decide +kernel⟩⟩
  let inner : NumberedCall loopTable := ⟨⟨some "t/A", "c:()V"⟩, ⟨1, by decide +kernel⟩⟩
  [⟨second, [[first]]⟩, ⟨first, [[inner], [second]]⟩]

/-- The pairs of calls from both calls of the loop are found, and numbered frames that are listed
out of order render to the same groups. -/
theorem render_canonical_loop :
    loopTable.Built ∧ ∃ found,
      ngramsFrom loopProgram commonObjectMethods loopOptions loopMethod [1, 0] = .ok found ∧
        found.HeldBy loopGroups ∧ renderGroups loopGroups = found.render ∧
        (∀ group ∈ found.render, WellGrouped group) ∧ found.render.flatten.Nodup := by
  have hlist : (ngramsFrom loopProgram commonObjectMethods loopOptions loopMethod [1, 0]).map
      (fun found => decide (found.toList.Perm (loopGroups.flatMap NumberedGroup.ngrams))) =
        .ok true := by
    decide +kernel
  obtain ⟨found, hfound, hperm⟩ := exists_of_map_eq_ok hlist
  have hheld : found.HeldBy loopGroups := by
    refine ⟨by decide, by decide, fun ngram => ?_⟩
    rw [(of_decide_eq_true hperm).mem_iff, List.mem_flatMap]
  obtain ⟨-, hrender, hgroups, hnodup⟩ := render_canonical (.inr ⟨[1, 0], hfound⟩)
  exact ⟨loopTable_built, found, hfound, hheld, hrender _ _ loopTable_built hheld, hgroups, hnodup⟩

end CallNgrams
