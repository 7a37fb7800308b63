import CallNgrams.Proofs.Search.Gram
import CallNgrams.Proofs.Search.Termination

/-!
# N-grams without repetitions

A search that does not allow repetitions looks for them at the end of a gram only. But a repetition
is completed by its last call, and when that call is made, it ends the gram. So no repetition that
fits into an n-gram ever gets into a gram: neither dropping the last calls nor forgetting the first
ones can bring one about.
-/

namespace CallNgrams

/-! ## Squares -/

/-- A block of elements stands in a list twice in a row, in no more than `bound` places. -/
def HasSquare {α : Type} (bound : Nat) (xs : List α) : Prop :=
  ∃ block : List α, block ≠ [] ∧ 2 * block.length ≤ bound ∧ block ++ block <:+: xs

namespace HasSquare

variable {α : Type} {bound : Nat} {xs ys : List α}

/-- A list with a square in it has the square. -/
theorem mono (h : HasSquare bound xs) (hpart : xs <:+: ys) : HasSquare bound ys := by
  obtain ⟨block, hne, hle, hblock⟩ := h
  exact ⟨block, hne, hle, hblock.trans hpart⟩

theorem reverse (h : HasSquare bound xs) : HasSquare bound xs.reverse := by
  obtain ⟨block, hne, hle, hblock⟩ := h
  refine ⟨block.reverse, ?_, ?_, ?_⟩
  · rwa [Ne, List.reverse_eq_nil_iff]
  · rwa [List.length_reverse]
  · rw [← List.reverse_append]
    exact List.reverse_infix.mpr hblock

/-- Elements that agree place by place with those one period further on make a square. -/
theorem of_agreement {i period : Nat} (hperiod : 1 ≤ period) (hbound : 2 * period ≤ bound)
    (hlength : i + 2 * period ≤ xs.length)
    (h : ∀ j < period, xs[i + j]? = xs[i + period + j]?) : HasSquare bound xs := by
  have hblock : ((xs.drop i).take period).length = period := by
    rw [List.length_take, List.length_drop]
    omega
  have hsame : (xs.drop (i + period)).take period = (xs.drop i).take period := by
    apply List.ext_getElem?
    intro j
    rw [List.getElem?_take, List.getElem?_take, List.getElem?_drop, List.getElem?_drop]
    split
    case isTrue hj => exact (h j hj).symm
    case isFalse => rfl
  refine ⟨(xs.drop i).take period, ?_, by rwa [hblock], xs.take i, xs.drop (i + 2 * period), ?_⟩
  · apply List.ne_nil_of_length_pos
    omega
  · have hdouble : (xs.drop i).take period ++ (xs.drop i).take period =
        (xs.drop i).take (2 * period) := by
      nth_rewrite 2 [← hsame]
      rw [Nat.two_mul, List.take_add, List.drop_drop]
    rw [hdouble, ← List.drop_drop, List.append_assoc, List.take_append_drop,
      List.take_append_drop]

end HasSquare

/-! ## Repetitions at the end of a gram -/

namespace Gram

variable {gram : Gram} {size : Nat} {items rest : List GramItem} {tries period : Nat}

/-- Lists whose targets begin with the same block agree. -/
theorem agree_of_prefix {block : List CallTarget} (hitems : block <+: items.map GramItem.target)
    (hrest : block <+: rest.map GramItem.target) : agree block.length items rest = true := by
  induction block generalizing items rest with
  | nil => rfl
  | cons target block ih =>
    cases items with
    | nil => exact absurd (List.prefix_nil.mp hitems) (List.cons_ne_nil _ _)
    | cons a items =>
      cases rest with
      | nil => exact absurd (List.prefix_nil.mp hrest) (List.cons_ne_nil _ _)
      | cons b rest =>
        obtain ⟨ha, hitems⟩ := List.cons_prefix_cons.mp hitems
        obtain ⟨hb, hrest⟩ := List.cons_prefix_cons.mp hrest
        rw [List.length_cons, agree, ih hitems hrest, ← ha, ← hb, Bool.and_true, beq_self_eq_true]

/-- If no repetition is found, none of the periods that were tried repeats. -/
theorem agree_eq_false_of_repeatFrom?
    (h : repeatFrom? items tries period (items.drop period) = none) {other : Nat}
    (hle : period ≤ other) (hlt : other < period + tries) :
    agree other items (items.drop other) = false := by
  induction tries generalizing period with
  | zero => omega
  | succ tries ih =>
    rw [repeatFrom?] at h
    split at h
    · cases h
    case isFalse hnot =>
      rw [List.tail_drop] at h
      rcases Nat.eq_or_lt_of_le hle with rfl | hlt'
      · exact Bool.eq_false_iff.mpr hnot
      · exact ih h hlt' (by omega)

theorem le_of_repeatFrom? {found : Nat} (h : repeatFrom? items tries period rest = some found) :
    period ≤ found := by
  induction tries generalizing period rest with
  | zero => cases h
  | succ tries ih =>
    rw [repeatFrom?] at h
    split at h
    · exact Nat.le_of_eq (Option.some.inj h)
    · exact Nat.le_of_succ_le (ih h)

/-- A gram that does not end with a repetition does not begin its list of targets with a square. -/
theorem not_prefix_of_shortestRepeat? (h : gram.shortestRepeat? size = none)
    {block : List CallTarget} (hne : block ≠ []) (hle : 2 * block.length ≤ size) :
    ¬block ++ block <+: gram.items.map GramItem.target := by
  intro hblock
  have hpos : 0 < block.length := List.length_pos_of_ne_nil hne
  have hlength := hblock.length_le
  rw [List.length_append, List.length_map, ← gram.count_eq] at hlength
  have hrest : block <+: (gram.items.drop block.length).map GramItem.target := by
    rw [List.map_drop]
    have hdrop := hblock.drop block.length
    rwa [List.drop_left] at hdrop
  have hagree := agree_of_prefix ((List.prefix_append _ _).trans hblock) hrest
  rw [shortestRepeat?, ← List.drop_one] at h
  rw [agree_eq_false_of_repeatFrom? h hpos (by omega)] at hagree
  cases hagree

/-- No block of calls stands in a gram twice in a row, in no more than `size` places. -/
def SquareFree (size : Nat) (gram : Gram) : Prop :=
  ¬HasSquare size (gram.items.map GramItem.target)

namespace SquareFree

theorem empty : Gram.empty.SquareFree size := by
  rintro ⟨block, hne, -, hblock⟩
  rw [items_empty, List.map_nil, List.infix_nil, List.append_eq_nil_iff] at hblock
  exact hne hblock.1

/-- Forgetting old calls makes no square. -/
theorem keepLast (h : gram.SquareFree size) (count : Nat) :
    (gram.keepLast count).SquareFree size := by
  intro hsquare
  rw [items_keepLast] at hsquare
  exact h (hsquare.mono ((List.take_prefix count gram.items).map _).isInfix)

/-- A call that completes no repetition completes no square. -/
theorem push (h : gram.SquareFree size) {item : GramItem}
    (hnone : (gram.push item).shortestRepeat? size = none) :
    (gram.push item).SquareFree size := by
  rintro ⟨block, hne, hle, hblock⟩
  rw [items_push, List.map_cons] at hblock
  -- A square in the longer gram lies in the shorter one, or the new call is its last element.
  rcases List.infix_cons_iff.mp hblock with hstart | hpart
  · exact not_prefix_of_shortestRepeat? hnone hne hle hstart
  · exact h ⟨block, hne, hle, hpart⟩

/-- With a repetition the call that has completed it is dropped again. -/
theorem dropLast (h : gram.SquareFree size) {item : GramItem}
    (hsome : (gram.push item).shortestRepeat? size = some period) :
    ((gram.push item).dropLast period).SquareFree size := by
  obtain ⟨dropped, rfl⟩ : ∃ k, period = k + 1 := ⟨period - 1, by
    have hpos := le_of_repeatFrom? hsome
    omega⟩
  intro hsquare
  rw [items_dropLast, items_push, List.drop_succ_cons] at hsquare
  exact h (hsquare.mono ((List.drop_suffix dropped gram.items).map _).isInfix)

end SquareFree

end Gram

/-! ## Grams along a path -/

namespace Search

variable {search : Search} {walk : Walk} {target : CallTarget} {size : Nat}

/-- A gram stays free of squares where repetitions are dropped. -/
theorem squareFree_grown (hallow : search.options.allowRepetitive = false)
    (h : walk.gram.SquareFree search.options.size) (target : CallTarget) :
    (search.grown walk target).SquareFree search.options.size := by
  have hperiod : search.period? (called walk target) =
      (called walk target).shortestRepeat? search.options.size := by
    simp [period?, hallow]
  rw [grown, hperiod]
  cases hrepeat : (called walk target).shortestRepeat? search.options.size with
  | none => exact h.push hrepeat
  | some period => exact h.dropLast hrepeat

/-- No path of a search without repetitions has a square in its gram. -/
theorem squareFree_invariant (hallow : search.options.allowRepetitive = false) :
    search.PathInvariant (fun walk => walk.gram.SquareFree search.options.size)
      (fun walk _ => walk.gram.SquareFree search.options.size) where
  enter h _ henter := by
    rw [(entered_of_enter? henter).gram]
    exact h
  lead h hleads := by
    cases hleads with
    | back | jump | decline => exact h
    | choose | into => exact h.keepLast _
    | past => exact squareFree_grown hallow h _

/-- An n-gram that a path ends with has no squares. -/
theorem Windowed.not_hasSquare (hallow : search.options.allowRepetitive = false) {ngram : Ngram}
    (h : search.Windowed (fun walk _ => walk.gram.SquareFree search.options.size) ngram) :
    ¬HasSquare search.options.size (ngram.toList.map GramItem.target) := by
  obtain ⟨walk, node, target, dest, hfree, -, -, hperiod, hwindow, -⟩ := h
  have hcalled := squareFree_grown hallow hfree target
  rw [grown, hperiod, Option.elim_none] at hcalled
  rw [(Gram.window?_eq_some_iff.mp hwindow).2, List.map_reverse]
  intro hsquare
  have hback := hsquare.reverse
  rw [List.reverse_reverse] at hback
  exact hcalled (hback.mono ((List.take_prefix _ _).map _).isInfix)

end Search

/-! ## Stored n-grams -/

/-- An n-gram has the given number of calls, and no two adjacent blocks of them have the same
targets, one by one. -/
structure Ngram.Unrepeated (size : Nat) (ngram : Ngram) : Prop where
  length : ngram.toList.length = size
  blocks : ∀ i period, 1 ≤ period → i + 2 * period ≤ size → ∃ j < period,
    (ngram.toList.map GramItem.target)[i + j]? ≠
      (ngram.toList.map GramItem.target)[i + period + j]?

/-- The window of a gram without squares is unrepeated. -/
theorem Search.Windowed.unrepeated {search : Search}
    (hallow : search.options.allowRepetitive = false) {ngram : Ngram}
    (h : search.Windowed (fun walk _ => walk.gram.SquareFree search.options.size) ngram) :
    ngram.Unrepeated search.options.size := by
  have hsquare := h.not_hasSquare hallow
  obtain ⟨_, _, _, _, -, -, -, -, hwindow, -⟩ := h
  have hlength := Gram.length_of_window? hwindow
  refine ⟨hlength, fun i period hperiod hle => ?_⟩
  by_contra hnone
  push Not at hnone
  refine hsquare (.of_agreement hperiod (by omega) ?_ hnone)
  rw [List.length_map, hlength]
  exact hle

section Compiled

variable {graphs : GraphTable} {policy : DigPolicy} {options : SearchOptions} {root : MethodKey}
  {graph : MethodGraph}

/-- A search that drops repetitions only adds n-grams without them. -/
theorem unrepeated_of_exploreFrom {start : Option Nat} {depth index : Nat}
    {found found' : NgramSet} (hallow : options.allowRepetitive = false)
    (h : Search.exploreFrom ⟨graphs, policy, options, root, start⟩ depth graph index found =
      .ok found') {ngram : Ngram} (hngram : ngram ∈ found'.toList) :
    ngram ∈ found.toList ∨ ngram.Unrepeated options.size := by
  have hinv : Search.PathInvariant ⟨graphs, policy, options, root, start⟩ _ _ :=
    Search.squareFree_invariant hallow
  exact (hinv.explore (.arrive Gram.SquareFree.empty) h hngram).imp_right
    fun hwindow => hwindow.unrepeated hallow

/-- No n-gram that a search without repetitions stores, from the start of a method or from given
indices, has two adjacent blocks of calls with the same targets. -/
theorem ngrams_unrepeated (hgraphs : graphs.Compiled) (policy : DigPolicy)
    (hsize : 0 < options.size) (hallow : options.allowRepetitive = false)
    (hroot : graphs.get? root = some graph) :
    (∃ found, ngrams graphs policy options root = .ok found ∧
        ∀ ngram ∈ found.toList, ngram.Unrepeated options.size) ∧
      ∀ indices found, ngramsFrom graphs policy options root indices = .ok found →
        ∀ ngram ∈ found.toList, ngram.Unrepeated options.size := by
  constructor
  · obtain ⟨found, hfound⟩ := hgraphs.exists_ngramsWithin policy hsize hroot
    have hrun := hfound _ (searchDepth_lt_depthLimit graphs options)
    refine ⟨found, hrun, fun ngram hngram => ?_⟩
    rw [ngramsWithin_eq hsize hroot] at hrun
    exact (unrepeated_of_exploreFrom hallow hrun hngram).resolve_left NgramSet.not_mem_empty
  · intro indices found h
    rw [ngramsFrom, ngramsFromWithin_eq hsize hroot] at h
    refine foldlM_keeps (P := fun set => ∀ ngram ∈ set.toList, ngram.Unrepeated options.size)
      ?_ (fun ngram hnone => absurd hnone NgramSet.not_mem_empty) h
    intro index _ set set' hset hadd ngram hngram
    rw [addNgramsFrom] at hadd
    split at hadd
    case h_1 => cases hadd
    case h_2 => exact (unrepeated_of_exploreFrom hallow hadd hngram).elim (hset ngram) id

end Compiled

/-- Two calls that are repeated, and two more. -/
def echoBody : Body :=
  ⟨#[some ⟨"invokestatic", [], some "// Method t/A.a:()V"⟩,
    some ⟨"invokestatic", [], some "// Method t/A.b:()V"⟩,
    some ⟨"invokestatic", [], some "// Method t/A.a:()V"⟩,
    some ⟨"invokestatic", [], some "// Method t/A.b:()V"⟩,
    some ⟨"invokestatic", [], some "// Method t/A.c:()V"⟩,
    some ⟨"invokestatic", [], some "// Method t/A.d:()V"⟩]⟩

/-- The graph of `echoBody`. -/
def echoGraph : MethodGraph where
  nodes := #[some ⟨some 1, .call ⟨some "t/A", "a:()V"⟩⟩, some ⟨some 2, .call ⟨some "t/A", "b:()V"⟩⟩,
    some ⟨some 3, .call ⟨some "t/A", "a:()V"⟩⟩, some ⟨some 4, .call ⟨some "t/A", "b:()V"⟩⟩,
    some ⟨some 5, .call ⟨some "t/A", "c:()V"⟩⟩, some ⟨some 6, .call ⟨some "t/A", "d:()V"⟩⟩,
    some ⟨none, .ret⟩]
  start := 0
  mergePoints := []

/-- A program with `echoBody` as its only method. -/
def echoProgram : GraphTable :=
  SignatureTable.empty.insert loopMethod echoGraph

/-- Four calls without repetitions. -/
def echoOptions : SearchOptions where
  size := 4
  maxCallDepth := 0

/-- The repeated calls of `echoBody` are dropped, and the one n-gram of four calls that is left has
no repetition. From the second call on there is an n-gram of four calls as well. -/
theorem ngrams_unrepeated_echo :
    echoProgram.Compiled ∧ 0 < echoOptions.size ∧ echoOptions.allowRepetitive = false ∧
      echoProgram.get? loopMethod = some echoGraph ∧
      (∃ found, ngrams echoProgram commonObjectMethods echoOptions loopMethod = .ok found ∧
        found.size = 1 ∧ ∀ ngram ∈ found.toList, ngram.Unrepeated 4) ∧
      ∃ found, ngramsFrom echoProgram commonObjectMethods echoOptions loopMethod [1] = .ok found ∧
        found.size = 1 ∧ ∀ ngram ∈ found.toList, ngram.Unrepeated 4 := by
  have hcompile : echoBody.compile none false loopMethod = .ok echoGraph := by decide +kernel
  have hcompiled : echoProgram.Compiled :=
    GraphTable.compiled_empty.insert (MethodGraph.compiled_of_compile hcompile) loopMethod
  have hroot : echoProgram.get? loopMethod = some echoGraph := by decide +kernel
  have hsize : (ngrams echoProgram commonObjectMethods echoOptions loopMethod).map
      NgramSet.size = .ok 1 := by
    decide +kernel
  have hsizeFrom : (ngramsFrom echoProgram commonObjectMethods echoOptions loopMethod [1]).map
      NgramSet.size = .ok 1 := by
    decide +kernel
  have hall := ngrams_unrepeated hcompiled commonObjectMethods (by decide : 0 < echoOptions.size)
    rfl hroot
  obtain ⟨found, hfound, hfree⟩ := hall.1
  obtain ⟨found', hfound', hone⟩ := exists_of_map_eq_ok hsizeFrom
  rw [hfound] at hsize
  exact ⟨hcompiled, by decide, rfl, hroot, ⟨found, hfound, Except.ok.inj hsize, hfree⟩,
    found', hfound', hone, hall.2 [1] found' hfound'⟩

end CallNgrams
