import CallNgrams.Search.Gram

/-!
# Windows of grams

A gram lists its calls from the last one back, so its last calls are the first of the list, and an
n-gram is the reverse of such a beginning. What is done with grams never looks at the frames of the
calls, so it can be done before or after other frames are put in their places.
-/

namespace CallNgrams

namespace Gram

variable {φ : Type} {gram : Gram φ} {size : Nat} {ngram : Ngram φ}

@[simp] theorem items_empty : (empty : Gram φ).items = [] :=
  rfl

@[simp] theorem items_push (item : GramItem φ) : (gram.push item).items = item :: gram.items :=
  rfl

@[simp] theorem items_dropLast (count : Nat) :
    (gram.dropLast count).items = gram.items.drop count :=
  rfl

/-- The last calls stand first, so keeping them takes a front part. -/
@[simp] theorem items_keepLast (size : Nat) :
    (gram.keepLast size).items = gram.items.take size := by
  unfold keepLast
  split
  case isTrue => rfl
  case isFalse h =>
    rw [List.take_of_length_le]
    rw [← gram.count_eq]
    omega

/-- An n-gram consists of the last `size` calls of a list, latest first. -/
def IsWindow (size : Nat) (items : List (GramItem φ)) (ngram : Ngram φ) : Prop :=
  size ≤ items.length ∧ ngram.toList = (items.take size).reverse

/-- The window of a gram holds its last calls in the order in which they were made. -/
theorem window?_eq_some_iff :
    gram.window? size = some ngram ↔ IsWindow size gram.items ngram := by
  unfold window? IsWindow
  rw [gram.count_eq]
  split
  case isTrue hsize =>
    simp only [hsize, true_and]
    split
    case h_1 head tail heq =>
      rw [heq, Option.some.injEq, eq_comm]
      obtain ⟨head', tail'⟩ := ngram
      simp [Ngram.toList]
    case h_2 heq => simp [heq, Ngram.toList]
  case isFalse hsize => simp [hsize]

/-- Only the last calls matter for a window. -/
theorem isWindow_append_take {more items : List (GramItem φ)} :
    IsWindow size (more ++ items.take size) ngram ↔ IsWindow size (more ++ items) ngram := by
  have htake : (more ++ items.take size).take size = (more ++ items).take size := by
    rw [List.take_append, List.take_append, List.take_take, Nat.min_eq_left (Nat.sub_le _ _)]
  have hlength : size ≤ (more ++ items.take size).length ↔ size ≤ (more ++ items).length := by
    simp only [List.length_append, List.length_take]
    omega
  rw [IsWindow, IsWindow, htake, hlength]

/-- A window has as many calls as it should. -/
theorem length_of_window? (h : gram.window? size = some ngram) : ngram.toList.length = size := by
  obtain ⟨hsize, htoList⟩ := window?_eq_some_iff.mp h
  rw [htoList, List.length_reverse, List.length_take, Nat.min_eq_left hsize]

end Gram

/-! ## Other frames -/

section Frames

variable {φ ψ : Type} (f : φ → ψ)

/-- A call with another frame. -/
def GramItem.map (item : GramItem φ) : GramItem ψ :=
  ⟨item.target, f item.frame⟩

/-- An n-gram with other frames. -/
def Ngram.map (ngram : Ngram φ) : Ngram ψ :=
  ⟨ngram.head.map f, ngram.tail.map (GramItem.map f)⟩

/-- The calls of a renamed n-gram are the renamed calls. -/
@[simp] theorem Ngram.toList_map (ngram : Ngram φ) :
    (ngram.map f).toList = ngram.toList.map (GramItem.map f) :=
  rfl

namespace Gram

/-- A gram with other frames. -/
def map (gram : Gram φ) : Gram ψ :=
  ⟨gram.items.map (GramItem.map f), gram.count, by rw [gram.count_eq, List.length_map]⟩

/-- Grams with the same calls are equal, since these tell the length. -/
theorem eq_of_items {gram gram' : Gram φ} (h : gram.items = gram'.items) : gram = gram' := by
  obtain ⟨items, count, hcount⟩ := gram
  obtain ⟨items', count', hcount'⟩ := gram'
  obtain rfl : items = items' := h
  obtain rfl : count = count' := hcount.trans hcount'.symm
  rfl

@[simp] theorem items_map (gram : Gram φ) :
    (gram.map f).items = gram.items.map (GramItem.map f) :=
  rfl

@[simp] theorem count_map (gram : Gram φ) : (gram.map f).count = gram.count :=
  rfl

/-- A call is renamed with the gram that it is pushed on. -/
theorem map_push (gram : Gram φ) (item : GramItem φ) :
    (gram.push item).map f = (gram.map f).push (item.map f) :=
  rfl

/-- The dropped calls are renamed or dropped first, with the same result. -/
theorem map_dropLast (gram : Gram φ) (count : Nat) :
    (gram.dropLast count).map f = (gram.map f).dropLast count :=
  eq_of_items (by simp [List.map_drop])

/-- So are the kept ones. -/
theorem map_keepLast (gram : Gram φ) (size : Nat) :
    (gram.keepLast size).map f = (gram.map f).keepLast size :=
  eq_of_items (by simp [List.map_take])

/-- Whether calls agree does not depend on their frames. -/
theorem agree_map (count : Nat) (items items' : List (GramItem φ)) :
    agree count (items.map (GramItem.map f)) (items'.map (GramItem.map f)) =
      agree count items items' := by
  induction count generalizing items items' with
  | zero => rfl
  | succ count ih =>
    cases items with
    | nil => rfl
    | cons item items =>
      cases items' with
      | nil => rfl
      | cons item' items' => simp only [List.map_cons, agree, ih, GramItem.map]

/-- So repetitions are found in whatever way frames are given. -/
theorem repeatFrom?_map (items : List (GramItem φ)) (tries period : Nat)
    (rest : List (GramItem φ)) :
    repeatFrom? (items.map (GramItem.map f)) tries period (rest.map (GramItem.map f)) =
      repeatFrom? items tries period rest := by
  induction tries generalizing period rest with
  | zero => rfl
  | succ tries ih => simp only [repeatFrom?, agree_map, ← List.map_tail, ih]

/-- Repetitions are told by targets alone. -/
theorem shortestRepeat?_map (size : Nat) (gram : Gram φ) :
    (gram.map f).shortestRepeat? size = gram.shortestRepeat? size := by
  rw [shortestRepeat?, shortestRepeat?, items_map, ← List.map_tail, repeatFrom?_map, count_map]

/-- The window with other frames is the window of the gram with other frames. -/
theorem window?_map (size : Nat) (gram : Gram φ) :
    (gram.map f).window? size = (gram.window? size).map (Ngram.map f) := by
  rw [window?, window?, count_map, items_map, ← List.map_take, ← List.map_reverse]
  split
  case isTrue => cases (gram.items.take size).reverse <;> rfl
  case isFalse => rfl

/-- Whether a signature is free does not depend on the frames of the calls. -/
theorem isFree_map (signature : String) (count : Nat) (items : List (GramItem φ)) :
    isFree signature count (items.map (GramItem.map f)) = isFree signature count items := by
  induction count generalizing items with
  | zero => rfl
  | succ count ih =>
    cases items with
    | nil => rfl
    | cons item items => simp only [List.map_cons, isFree, ih, GramItem.map]

theorem isRecentlyFree_map (count : Nat) (signature : String) (gram : Gram φ) :
    (gram.map f).isRecentlyFree count signature = gram.isRecentlyFree count signature :=
  isFree_map f signature count gram.items

end Gram

end Frames

end CallNgrams
