import CallNgrams.Search.NgramSet

/-!
# Members of sets of n-grams

The orders of call sites, calls and n-grams tell different values apart, so a set of n-grams holds
exactly what has been inserted.
-/

namespace CallNgrams

/-- Two comparisons in turn tell different values apart if together they do. -/
theorem lawfulEqCmp_compareLex {α : Type} {first second : α → α → Ordering} [Std.ReflCmp first]
    [Std.ReflCmp second] (h : ∀ a b, first a b = .eq → second a b = .eq → a = b) :
    Std.LawfulEqCmp (compareLex first second) where
  eq_of_compare {a b} hab := by
    obtain ⟨hfirst, hsecond⟩ := compareLex_eq_eq.mp hab
    exact h a b hfirst hsecond

/-- Values that a comparison by a key takes for equal have the same key. -/
theorem eq_of_compareOn {α β : Type} [Ord β] [Std.LawfulEqOrd β] {f : α → β} {a b : α}
    (h : compareOn f a b = .eq) : f a = f b :=
  Std.LawfulEqOrd.compare_eq_iff_eq.mp h

instance : Std.TransOrd CallTarget :=
  inferInstanceAs (Std.TransCmp (compareLex (compareOn CallTarget.owner)
    (compareOn CallTarget.signature)))

instance : Std.LawfulEqOrd CallTarget :=
  lawfulEqCmp_compareLex <| by
    rintro ⟨owner, signature⟩ ⟨owner', signature'⟩ howner hsignature
    obtain rfl : owner = owner' := eq_of_compareOn howner
    obtain rfl : signature = signature' := eq_of_compareOn hsignature
    rfl

instance : Std.TransOrd ProgramPoint :=
  inferInstanceAs (Std.TransCmp (compareLex (compareOn ProgramPoint.method)
    (compareOn ProgramPoint.index)))

instance : Std.LawfulEqOrd ProgramPoint :=
  lawfulEqCmp_compareLex <| by
    rintro ⟨method, index⟩ ⟨method', index'⟩ hmethod hindex
    obtain rfl : method = method' := eq_of_compareOn hmethod
    obtain rfl : index = index' := eq_of_compareOn hindex
    rfl

instance : Std.TransOrd Frame :=
  inferInstanceAs (Std.TransCmp (compareLex (compareOn Frame.point)
    (compareLex (compareOn Frame.depth) (compareOn Frame.callers))))

instance : Std.LawfulEqOrd Frame :=
  lawfulEqCmp_compareLex <| by
    rintro ⟨point, callers⟩ ⟨point', callers'⟩ hpoint hrest
    obtain rfl : point = point' := eq_of_compareOn hpoint
    obtain rfl : callers = callers' := eq_of_compareOn (compareLex_eq_eq.mp hrest).2
    rfl

instance {φ : Type} [Ord φ] [Std.TransOrd φ] : Std.TransOrd (GramItem φ) :=
  inferInstanceAs (Std.TransCmp (compareLex (compareOn GramItem.target) (compareOn GramItem.frame)))

instance {φ : Type} [Ord φ] [Std.LawfulEqOrd φ] : Std.LawfulEqOrd (GramItem φ) :=
  lawfulEqCmp_compareLex <| by
    rintro ⟨target, frame⟩ ⟨target', frame'⟩ htarget hframe
    obtain rfl : target = target' := eq_of_compareOn htarget
    obtain rfl : frame = frame' := eq_of_compareOn hframe
    rfl

instance : Std.TransOrd Ngram :=
  inferInstanceAs (Std.TransCmp (compareLex (compareOn Ngram.head) (compareOn Ngram.tail)))

instance : Std.LawfulEqOrd Ngram :=
  lawfulEqCmp_compareLex <| by
    rintro ⟨head, tail⟩ ⟨head', tail'⟩ hhead htail
    obtain rfl : head = head' := eq_of_compareOn hhead
    obtain rfl : tail = tail' := eq_of_compareOn htail
    rfl

namespace NgramSet

variable {set : NgramSet} {ngram other : Ngram}

/-- A set contains an n-gram if it lists it. -/
theorem contains_iff : set.contains ngram = true ↔ ngram ∈ set.toList := by
  rw [contains, toList, Std.TreeSet.mem_toList, Std.TreeSet.contains_iff_mem]

@[simp] theorem not_mem_empty : ngram ∉ empty.toList := by
  rw [← contains_iff, empty, contains]
  simp

/-- A set holds the inserted n-gram and what it held before. -/
@[simp] theorem mem_insert :
    ngram ∈ (set.insert other).toList ↔ ngram = other ∨ ngram ∈ set.toList := by
  rw [toList, toList, insert, Std.TreeSet.mem_toList, Std.TreeSet.mem_toList,
    Std.TreeSet.mem_insert, Std.LawfulEqOrd.compare_eq_iff_eq, eq_comm]

end NgramSet

end CallNgrams
