import CallNgrams.Proofs.Search.NgramSet
import Mathlib.Data.List.SplitBy

/-!
# Rendered sets of n-grams

Rendering sorts the n-grams of a set by groups and lists equal ones once. It neither loses a
rendered n-gram nor adds one.
-/

namespace CallNgrams

instance : Std.TransOrd GramStep :=
  inferInstanceAs (Std.TransCmp (compareLex (compareOn GramStep.label)
    (compareLex (compareOn GramStep.location) (compareOn GramStep.depth))))

instance : Std.LawfulEqOrd GramStep :=
  lawfulEqCmp_compareLex <| by
    rintro ⟨label, location, depth⟩ ⟨label', location', depth'⟩ hlabel hrest
    obtain ⟨hlocation, hdepth⟩ := compareLex_eq_eq.mp hrest
    obtain rfl : label = label' := eq_of_compareOn hlabel
    obtain rfl : location = location' := eq_of_compareOn hlocation
    obtain rfl : depth = depth' := eq_of_compareOn hdepth
    rfl

section Repetitions

variable {α : Type} [BEq α] [LawfulBEq α]

/-- The loop that drops neighbours which are the same keeps one of each. -/
theorem mem_eraseReps_loop {a first : α} {xs kept : List α} :
    a ∈ List.eraseRepsBy.loop (· == ·) first xs kept ↔ a = first ∨ a ∈ xs ∨ a ∈ kept := by
  induction xs generalizing first kept with
  | nil =>
    rw [List.eraseRepsBy.loop, List.mem_reverse, List.mem_cons]
    simp only [List.not_mem_nil, false_or]
  | cons x xs ih =>
    rw [List.eraseRepsBy.loop]
    cases heq : first == x with
    | true =>
      obtain rfl : first = x := eq_of_beq heq
      simp only [ih, List.mem_cons]
      tauto
    | false =>
      simp only [ih, List.mem_cons]
      tauto

/-- Dropping neighbours that are the same loses no member. -/
theorem mem_eraseReps {a : α} {xs : List α} : a ∈ xs.eraseReps ↔ a ∈ xs := by
  cases xs with
  | nil => rfl
  | cons x xs =>
    rw [List.eraseReps, List.eraseRepsBy, mem_eraseReps_loop, List.mem_cons]
    simp only [List.not_mem_nil, or_false]

end Repetitions

namespace NgramSet

variable {set : NgramSet} {ngrams : List Ngram} {rendered : RenderedNgram}

/-- A group is rendered n-gram by n-gram. -/
theorem mem_renderGroup :
    rendered ∈ renderGroup ngrams ↔ ∃ ngram ∈ ngrams, ngram.render = rendered := by
  rw [renderGroup, mem_eraseReps, List.mem_mergeSort, List.mem_map]

/-- Grouping and sorting a set neither loses a rendered n-gram nor adds one. -/
theorem mem_flatten_render :
    rendered ∈ set.render.flatten ↔ ∃ ngram ∈ set.toList, ngram.render = rendered := by
  have hgroups : set.groups.flatten = set.toList := List.flatten_splitBy _ _
  simp only [render, List.mem_flatten, List.mem_map, ← hgroups]
  constructor
  · rintro ⟨_, ⟨group, hgroup, rfl⟩, hmem⟩
    obtain ⟨ngram, hngram, heq⟩ := mem_renderGroup.mp hmem
    exact ⟨ngram, ⟨group, hgroup, hngram⟩, heq⟩
  · rintro ⟨ngram, ⟨group, hgroup, hngram⟩, heq⟩
    exact ⟨_, ⟨group, hgroup, rfl⟩, mem_renderGroup.mpr ⟨ngram, hngram, heq⟩⟩

end NgramSet

end CallNgrams
