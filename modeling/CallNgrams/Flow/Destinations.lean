/-!
# Sets of destinations

Branch targets and merge points are kept as strictly ascending lists of indices, so that equal sets
are equal lists.
-/

namespace CallNgrams.Destinations

/-- Adds an index to an ascending list, unless it is there already. -/
def insert (index : Nat) : List Nat → List Nat
  | [] => [index]
  | least :: rest =>
    if index < least then index :: least :: rest
    else if index = least then least :: rest
    else least :: insert index rest

/-- The ascending list of the given indices, each once. -/
def ofList (indices : List Nat) : List Nat :=
  indices.foldr insert []

@[simp] theorem mem_insert {index i : Nat} {indices : List Nat} :
    i ∈ insert index indices ↔ i = index ∨ i ∈ indices := by
  induction indices with
  | nil => simp [insert]
  | cons least rest ih =>
    unfold insert
    split
    · simp
    · split
      · rename_i h
        simp [h]
      · simp only [List.mem_cons, ih]
        exact or_left_comm

@[simp] theorem mem_ofList {i : Nat} {indices : List Nat} : i ∈ ofList indices ↔ i ∈ indices := by
  induction indices with
  | nil => simp [ofList]
  | cons index rest ih =>
    rw [show ofList (index :: rest) = insert index (ofList rest) from rfl, mem_insert, ih,
      List.mem_cons]

end CallNgrams.Destinations
