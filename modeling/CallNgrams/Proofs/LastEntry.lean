import Mathlib.Data.List.Basic

/-!
# The last entry of a key

Where entries overwrite each other, a table ends with the last entry of each key. Which one is last
does not depend on the order of blocks of entries, if each key has all its entries in one block.
-/

namespace CallNgrams

variable {α κ ν : Type} [DecidableEq κ] {keyOf : α → κ} {entries later : List α} {key : κ}

/-- The last entry of a key. -/
def lastOf? (keyOf : α → κ) (entries : List α) (key : κ) : Option α :=
  (entries.filter fun entry => keyOf entry = key).getLast?

/-- A later entry comes before the earlier ones. -/
theorem lastOf?_append : lastOf? keyOf (entries ++ later) key =
    (lastOf? keyOf later key).or (lastOf? keyOf entries key) := by
  rw [lastOf?, List.filter_append, List.getLast?_append]
  rfl

theorem lastOf?_eq_none_iff :
    lastOf? keyOf entries key = none ↔ ∀ entry ∈ entries, keyOf entry ≠ key := by
  simp [lastOf?]

/-- The last entry of a key is one of the entries with that key. -/
theorem mem_of_lastOf? {entry : α} (h : lastOf? keyOf entries key = some entry) :
    entry ∈ entries ∧ keyOf entry = key := by
  simpa using List.mem_filter.mp (List.mem_of_getLast? h)

/-- A table whose rounds put the value of an entry at its key, and change nothing else, ends with
the value of the last entry of each key. -/
theorem get_foldl_put {σ : Type} (get : σ → κ → Option ν) {put : σ → α → σ} {valueOf : α → ν}
    {P : σ → Prop} {s : σ}
    (hput : ∀ entry ∈ entries, ∀ s, P s → P (put s entry) ∧
      ∀ key, get (put s entry) key = if keyOf entry = key then some (valueOf entry) else get s key)
    (hs : P s) (key : κ) :
    get (entries.foldl put s) key =
      ((lastOf? keyOf entries key).map valueOf).or (get s key) := by
  induction entries generalizing s with
  | nil => rfl
  | cons entry entries ih =>
    obtain ⟨hkeep, hget⟩ := hput entry List.mem_cons_self s hs
    rw [List.foldl_cons, ih (fun entry hentry => hput entry (List.mem_cons_of_mem _ hentry)) hkeep,
      hget, ← List.singleton_append, lastOf?_append]
    by_cases hkey : keyOf entry = key <;>
      cases lastOf? keyOf entries key <;> simp [lastOf?, hkey]

/-- If all entries of a key are in one block, the last of them is the last one of that block. -/
theorem lastOf?_flatMap {β : Type} {blocks : List β} {entriesOf : β → List α} {block : β}
    (hblock : block ∈ blocks)
    (hkey : ∀ other ∈ blocks, ∀ entry ∈ entriesOf other, keyOf entry = key → other = block) :
    lastOf? keyOf (blocks.flatMap entriesOf) key = lastOf? keyOf (entriesOf block) key := by
  induction blocks with
  | nil => cases hblock
  | cons first blocks ih =>
    have hrest : ∀ other ∈ blocks, ∀ entry ∈ entriesOf other, keyOf entry = key → other = block :=
      fun other hother => hkey other (List.mem_cons_of_mem _ hother)
    rw [List.flatMap_cons, lastOf?_append]
    by_cases hlater : block ∈ blocks
    · rw [ih hlater hrest]
      by_cases hfirst : first = block
      · rw [hfirst, Option.or_self]
      · have hnone : lastOf? keyOf (entriesOf first) key = none :=
          lastOf?_eq_none_iff.mpr fun entry hentry heq =>
            hfirst (hkey first List.mem_cons_self entry hentry heq)
        rw [hnone, Option.or_none]
    · obtain rfl : block = first := (List.mem_cons.mp hblock).resolve_right hlater
      have hnone : lastOf? keyOf (blocks.flatMap entriesOf) key = none := by
        refine lastOf?_eq_none_iff.mpr fun entry hentry heq => ?_
        obtain ⟨other, hother, hmem⟩ := List.mem_flatMap.mp hentry
        exact hlater (hrest other hother entry hmem heq ▸ hother)
      rw [hnone, Option.none_or]

/-- The last entry of a key does not depend on the order of the blocks, if no key has entries in two
different ones. -/
theorem lastOf?_flatMap_perm {β : Type} {blocks blocks' : List β} {entriesOf : β → List α}
    (hperm : blocks.Perm blocks')
    (hkeys : ∀ block ∈ blocks, ∀ other ∈ blocks, block ≠ other →
      ∀ entry ∈ entriesOf block, ∀ entry' ∈ entriesOf other, keyOf entry ≠ keyOf entry') :
    lastOf? keyOf (blocks.flatMap entriesOf) key =
      lastOf? keyOf (blocks'.flatMap entriesOf) key := by
  by_cases hdefined : ∃ block ∈ blocks, ∃ entry ∈ entriesOf block, keyOf entry = key
  · obtain ⟨block, hblock, entry, hentry, rfl⟩ := hdefined
    have hunique : ∀ other ∈ blocks, ∀ entry' ∈ entriesOf other, keyOf entry' = keyOf entry →
        other = block := by
      intro other hother entry' hentry' heq
      by_contra hne
      exact hkeys block hblock other hother (Ne.symm hne) entry hentry entry' hentry' heq.symm
    rw [lastOf?_flatMap hblock hunique, lastOf?_flatMap (hperm.mem_iff.mp hblock)
      fun other hother => hunique other (hperm.mem_iff.mpr hother)]
  · have hnone : ∀ entry ∈ blocks.flatMap entriesOf, keyOf entry ≠ key := by
      rw [List.forall_mem_flatMap]
      exact fun block hblock entry hentry heq => hdefined ⟨block, hblock, entry, hentry, heq⟩
    rw [lastOf?_eq_none_iff.mpr hnone, lastOf?_eq_none_iff.mpr fun entry hentry =>
      hnone entry ((hperm.flatMap_right entriesOf).mem_iff.mpr hentry)]

end CallNgrams
