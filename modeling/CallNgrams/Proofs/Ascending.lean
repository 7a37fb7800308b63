import Mathlib.Data.List.Sort

/-!
# Ascending lists

A list that ascends strictly has no repetitions and is determined by its members. Sorting leads to
such a list if repetitions are dropped afterwards.
-/

namespace CallNgrams

/-- Each member of a list comes before all later ones. -/
def Ascending {α : Type} [Ord α] (xs : List α) : Prop :=
  xs.Pairwise fun a b => compare a b = .lt

variable {α : Type} [Ord α]

/-- Different values that are in order are strictly in order. -/
theorem lt_of_isLE_of_ne [Std.LawfulEqOrd α] {a b : α} (hle : (compare a b).isLE = true)
    (hne : a ≠ b) : compare a b = .lt := by
  cases hab : compare a b with
  | lt => rfl
  | eq => exact absurd (Std.LawfulEqOrd.eq_of_compare hab) hne
  | gt => simp [hab] at hle

/-- A list still ascends if a member is appended that all others come before. -/
theorem Ascending.append_singleton {xs : List α} {a : α} (h : Ascending xs)
    (ha : ∀ b ∈ xs, compare b a = .lt) : Ascending (xs ++ [a]) := by
  rw [Ascending, List.pairwise_append]
  refine ⟨h, List.pairwise_singleton _ _, ?_⟩
  simpa using ha

variable [Std.TransOrd α]

instance irrefl_compare : Std.Irrefl fun a b : α => compare a b = .lt where
  irrefl a h := by simp [Std.compare_self] at h

instance antisymm_compare : Std.Antisymm fun a b : α => compare a b = .lt where
  antisymm a b hab hba := by
    have haa := Std.TransCmp.lt_trans hab hba
    simp [Std.compare_self] at haa

theorem Ascending.nodup {xs : List α} (h : Ascending xs) : xs.Nodup :=
  List.Pairwise.nodup h

/-- An ascending list is determined by its members. -/
theorem Ascending.eq_of_mem_iff {xs ys : List α} (hxs : Ascending xs) (hys : Ascending ys)
    (h : ∀ a, a ∈ xs ↔ a ∈ ys) : xs = ys :=
  List.Pairwise.eq_of_mem_iff hxs hys h

/-- Sorting by a key puts the keys in order. -/
theorem pairwise_mergeSort_key {β : Type} (key : β → α) (xs : List β) :
    (xs.mergeSort fun a b => (compare (key a) (key b)).isLE).Pairwise
      fun a b => (compare (key a) (key b)).isLE = true := by
  apply List.pairwise_mergeSort
  · intro a b c hab hbc
    exact Std.TransCmp.isLE_trans hab hbc
  · intro a b
    rw [Std.OrientedOrd.eq_swap (a := key a)]
    cases compare (key b) (key a) <;> rfl

variable [Std.LawfulEqOrd α]

/-- Dropping neighbours that are the same makes a sorted list ascend strictly. -/
theorem ascending_eraseReps_loop [BEq α] [LawfulBEq α] {first : α} {xs kept : List α}
    (hxs : (first :: xs).Pairwise fun a b => (compare a b).isLE = true)
    (hkept : Ascending kept.reverse) (hfirst : ∀ a ∈ kept, compare a first = .lt) :
    Ascending (List.eraseRepsBy.loop (· == ·) first xs kept) := by
  induction xs generalizing first kept with
  | nil =>
    rw [List.eraseRepsBy.loop, List.reverse_cons]
    exact hkept.append_singleton (by simpa using hfirst)
  | cons x xs ih =>
    obtain ⟨hle, hxs'⟩ := List.pairwise_cons.mp hxs
    rw [List.eraseRepsBy.loop]
    cases heq : first == x with
    | true => exact ih (hxs.sublist (by simp)) hkept hfirst
    | false =>
      have hlt := lt_of_isLE_of_ne (hle x List.mem_cons_self) (by simpa using heq)
      apply ih hxs'
      · rw [List.reverse_cons]
        exact hkept.append_singleton (by simpa using hfirst)
      · intro a ha
        rcases List.mem_cons.mp ha with rfl | ha
        · exact hlt
        · exact Std.TransCmp.lt_trans (hfirst a ha) hlt

/-- Sorting and dropping repetitions leads to an ascending list. -/
theorem ascending_eraseReps_mergeSort [BEq α] [LawfulBEq α] (xs : List α) :
    Ascending (xs.mergeSort fun a b => (compare a b).isLE).eraseReps := by
  have hsorted := pairwise_mergeSort_key id xs
  simp only [id_eq] at hsorted
  cases hxs : xs.mergeSort fun a b => (compare a b).isLE with
  | nil => exact List.Pairwise.nil
  | cons first rest =>
    rw [hxs] at hsorted
    exact ascending_eraseReps_loop hsorted List.Pairwise.nil (by simp)

end CallNgrams
