import CallNgrams.Proofs.Ascending
import CallNgrams.Proofs.LastEntry
import CallNgrams.SignatureTable

/-!
# Looking up methods

A table holds for each method the value that was inserted last, and lists exactly the methods that
have a value.
-/

namespace CallNgrams.SignatureTable

variable {β : Type} {table : SignatureTable β} {key other : MethodKey} {value : β}

@[simp] theorem get?_empty : (empty : SignatureTable β).get? key = none := by
  simp [get?, row, empty]

/-- Inserting changes the row of the signature only. -/
theorem row_insert (signature : String) :
    (table.insert key value).row signature =
      if key.signature = signature then (table.row signature).insert key.owner value
      else table.row signature := by
  simp only [row, insert, Std.TreeMap.getD_insert, Std.LawfulEqOrd.compare_eq_iff_eq]
  split
  case isTrue h => rw [h]
  case isFalse => rfl

/-- The inserted value is found at its key only. -/
theorem get?_insert :
    (table.insert key value).get? other = if key = other then some value else table.get? other := by
  rw [get?, row_insert, get?]
  by_cases hsignature : key.signature = other.signature
  · simp only [hsignature, if_true, Std.TreeMap.getElem?_insert,
      Std.LawfulEqOrd.compare_eq_iff_eq]
    by_cases howner : key.owner = other.owner
    · have hkey : key = other := by
        cases key
        cases other
        simp_all
      rw [if_pos howner, if_pos hkey]
    · rw [if_neg howner, if_neg fun hkey => howner (congrArg MethodKey.owner hkey)]
  · rw [if_neg hsignature, if_neg fun hkey => hsignature (congrArg MethodKey.signature hkey)]

/-- A table of a list of entries holds the last value of each method. -/
theorem get?_ofList (entries : List (MethodKey × β)) (key : MethodKey) :
    (ofList entries).get? key = (lastOf? Prod.fst entries key).map Prod.snd := by
  have hinsert : ∀ entry ∈ entries, ∀ table : SignatureTable β, True → True ∧
      ∀ key, (table.insert entry.1 entry.2).get? key =
        if entry.1 = key then some entry.2 else table.get? key :=
    fun entry _ table _ => ⟨trivial, fun key => get?_insert⟩
  have hfilled := get_foldl_put get? hinsert (s := empty) trivial key
  rwa [get?_empty, Option.or_none] at hfilled

/-- All entries of a table are listed. -/
theorem mem_toList (h : table.get? key = some value) : (key, value) ∈ table.toList := by
  have hrow : table.rows[key.signature]? = some (table.row key.signature) := by
    rw [get?] at h
    rw [row, Std.TreeMap.getD_eq_getD_getElem?] at h ⊢
    cases hget : table.rows[key.signature]? with
    | some found => rfl
    | none =>
      rw [hget] at h
      simp at h
  rw [toList, List.mem_flatMap]
  refine ⟨(key.signature, table.row key.signature), ?_, ?_⟩
  · exact Std.TreeMap.mem_toList_iff_getElem?_eq_some.mpr hrow
  · exact List.mem_map.mpr ⟨(key.owner, value),
      Std.TreeMap.mem_toList_iff_getElem?_eq_some.mpr h, rfl⟩

theorem mem_toList_iff : (key, value) ∈ table.toList ↔ table.get? key = some value := by
  refine ⟨fun h => ?_, mem_toList⟩
  obtain ⟨⟨signature, row⟩, hrow, hentry⟩ := List.mem_flatMap.mp h
  obtain ⟨⟨owner, found⟩, hfound, heq⟩ := List.mem_map.mp hentry
  obtain ⟨rfl, rfl⟩ := Prod.mk.inj heq
  rw [Std.TreeMap.mem_toList_iff_getElem?_eq_some] at hrow hfound
  rw [get?, SignatureTable.row, Std.TreeMap.getD_eq_getD_getElem?, hrow]
  exact hfound

/-- No method is listed twice: the signatures of the rows differ, and the classes in a row do. -/
theorem nodup_toList_keys (table : SignatureTable β) : (table.toList.map Prod.fst).Nodup := by
  rw [toList, List.map_flatMap, List.nodup_flatMap]
  refine ⟨fun entry _ => ?_, Std.TreeMap.distinct_keys_toList.imp fun hdistinct => ?_⟩
  · have hkeys : (entry.2.toList.map fun found =>
        ((⟨found.1, entry.1⟩ : MethodKey), found.2)).map Prod.fst =
          entry.2.keys.map fun owner => ⟨owner, entry.1⟩ := by
      rw [← Std.TreeMap.map_fst_toList_eq_keys, List.map_map, List.map_map]
      rfl
    rw [hkeys]
    exact Std.TreeMap.nodup_keys.map fun _ _ heq => congrArg MethodKey.owner heq
  · intro key hleft hright
    simp only [List.map_map, List.mem_map] at hleft hright
    obtain ⟨_, -, rfl⟩ := hleft
    obtain ⟨_, -, heq⟩ := hright
    have hsame := congrArg MethodKey.signature heq
    exact hdistinct (Std.LawfulEqOrd.compare_eq_iff_eq.mpr hsame.symm)

theorem mem_keys : key ∈ table.keys ↔ (table.get? key).isSome := by
  rw [keys, List.mem_mergeSort, List.mem_map, Option.isSome_iff_exists]
  constructor
  · rintro ⟨⟨_, value⟩, hmem, rfl⟩
    exact ⟨value, mem_toList_iff.mp hmem⟩
  · rintro ⟨value, hvalue⟩
    exact ⟨(key, value), mem_toList hvalue, rfl⟩

/-- The methods of a table ascend by class, then by signature. -/
theorem ascending_keys (table : SignatureTable β) : Ascending table.keys := by
  have hsorted := pairwise_mergeSort_key id (table.toList.map Prod.fst)
  have hnodup : table.keys.Nodup := (List.mergeSort_perm _ _).nodup_iff.mpr table.nodup_toList_keys
  exact (hsorted.and hnodup).imp fun h => lt_of_isLE_of_ne h.1 h.2

/-- The definers of a signature are the classes with an entry for it. -/
theorem mem_definers {owner signature : String} :
    owner ∈ table.definers signature ↔ (table.get? ⟨owner, signature⟩).isSome := by
  rw [definers, Std.TreeMap.mem_keys, Std.TreeMap.mem_iff_isSome_getElem?, get?]

/-- Tables that agree on some of the methods with a signature list these classes alike. -/
theorem filter_definers_congr {table' : SignatureTable β} {signature : String} {p : String → Bool}
    (h : ∀ owner, p owner = true → table.get? ⟨owner, signature⟩ = table'.get? ⟨owner, signature⟩) :
    (table.definers signature).filter p = (table'.definers signature).filter p := by
  refine Ascending.eq_of_mem_iff (Std.TreeMap.ordered_keys.filter p)
    (Std.TreeMap.ordered_keys.filter p) fun owner => ?_
  rw [List.mem_filter, List.mem_filter, mem_definers, mem_definers]
  exact and_congr_left fun howner => by rw [h owner howner]

end CallNgrams.SignatureTable
