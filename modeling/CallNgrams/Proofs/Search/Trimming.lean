import CallNgrams.Proofs.Search.SquareFree
import Std.Data.String.ToNat

/-!
# Trimmed grams

A path that branches off or enters a method keeps the last calls of its gram only, as many as an
n-gram has. Its n-grams are the same as with the whole gram as long as no repetition reaches back
behind the kept calls. This cannot happen if repetitions are allowed or n-grams have at most five
calls; for every larger size there are grams that lose an n-gram.
-/

namespace CallNgrams

namespace Gram

variable {size : Nat} {allow : Bool} {gram full short : Gram} {item : GramItem}
  {items : List GramItem}

/-! ## Calls behind a gram -/

/-- The gram after a further call, and the n-gram that the call completes. A repetition that it
completes is dropped instead. -/
def call (size : Nat) (allow : Bool) (gram : Gram) (item : GramItem) : Gram × Option Ngram :=
  match if allow then none else (gram.push item).shortestRepeat? size with
  | some period => ((gram.push item).dropLast period, none)
  | none => (gram.push item, (gram.push item).window? size)

/-- The gram after further calls. -/
def afterCalls (size : Nat) (allow : Bool) (gram : Gram) (items : List GramItem) : Gram :=
  items.foldl (fun gram item => (gram.call size allow item).1) gram

/-- What each of the further calls completes. -/
def windows (size : Nat) (allow : Bool) : Gram → List GramItem → List (Option Ngram)
  | _, [] => []
  | gram, item :: items =>
    (gram.call size allow item).2 :: windows size allow (gram.call size allow item).1 items

/-- A gram that calls can lead to. -/
def Reached (size : Nat) (allow : Bool) (gram : Gram) : Prop :=
  ∃ items, gram = empty.afterCalls size allow items

/-- A call that completes a repetition is dropped with it and completes no n-gram. -/
theorem call_of_some {period : Nat} (h : (gram.push item).shortestRepeat? size = some period) :
    gram.call size false item = ((gram.push item).dropLast period, none) := by
  simp [call, h]

theorem call_of_none (h : (gram.push item).shortestRepeat? size = none) :
    gram.call size false item = (gram.push item, (gram.push item).window? size) := by
  simp [call, h]

/-- Where repetitions are allowed, every call stays. -/
theorem call_of_allowed :
    gram.call size true item = (gram.push item, (gram.push item).window? size) := by
  simp [call]

theorem afterCalls_append_singleton :
    gram.afterCalls size allow (items ++ [item]) =
      ((gram.afterCalls size allow items).call size allow item).1 := by
  rw [afterCalls, List.foldl_append]
  rfl

/-- A call keeps a gram free of squares, since it drops the one it completes. -/
theorem SquareFree.call (h : gram.SquareFree size) (item : GramItem) :
    (gram.call size false item).1.SquareFree size := by
  cases hrepeat : (gram.push item).shortestRepeat? size with
  | none =>
    rw [call_of_none hrepeat]
    exact h.push hrepeat
  | some period =>
    rw [call_of_some hrepeat]
    exact h.dropLast hrepeat

/-- No gram that calls can lead to has a square. -/
theorem Reached.squareFree (h : gram.Reached size false) : gram.SquareFree size := by
  obtain ⟨items, rfl⟩ := h
  induction items using List.reverseRecOn with
  | nil => exact SquareFree.empty
  | append_singleton items item ih =>
    rw [afterCalls_append_singleton]
    exact ih.call item

end Gram

/-- A path goes on with the gram after its call, and may find or end at the n-gram that the call
completes. -/
theorem Search.emit_eq (search : Search) (walk : Walk) (target : CallTarget) (next : Option Nat)
    (found : NgramSet) {after : Gram} {ngram? : Option Ngram}
    (h : walk.gram.call search.options.size search.options.allowRepetitive ⟨target, walk.frame⟩ =
      (after, ngram?)) :
    search.emit walk target next found =
      if ngram?.any fun ngram => search.isForeign ngram.head || found.contains ngram then
        .ok (found, [])
      else ({ walk with gram := after }.goTo next).map fun walk =>
        (ngram?.elim found found.insert, [.arrive walk]) := by
  rw [Gram.call] at h
  rw [emit]
  generalize (if search.options.allowRepetitive = true then none
    else (walk.gram.push ⟨target, walk.frame⟩).shortestRepeat? search.options.size) = period? at h ⊢
  cases period? with
  | some period =>
    obtain ⟨rfl, rfl⟩ := Prod.mk.inj h
    rfl
  | none =>
    obtain ⟨rfl, rfl⟩ := Prod.mk.inj h
    cases (walk.gram.push ⟨target, walk.frame⟩).window? search.options.size with
    | none => rfl
    | some ngram => rfl

namespace Gram

variable {size : Nat} {allow : Bool} {gram full short : Gram} {item : GramItem}
  {items items' : List GramItem}

/-! ## What the end of a gram tells -/

/-- A list of calls, latest first, ends with the same targets twice. -/
def Repeats (period : Nat) (items : List GramItem) : Prop :=
  ∀ i < period, ∃ a b, items[i]? = some a ∧ items[period + i]? = some b ∧ a.target = b.target

/-- Calls agree if each of them has the target of the other at its place. -/
theorem agree_eq_true_iff {count : Nat} {rest : List GramItem} :
    agree count items rest = true ↔
      ∀ i < count, ∃ a b, items[i]? = some a ∧ rest[i]? = some b ∧ a.target = b.target := by
  induction count generalizing items rest with
  | zero => simp [agree]
  | succ count ih =>
    rw [Nat.forall_lt_succ_left]
    cases items with
    | nil => simp [agree]
    | cons a items =>
      cases rest with
      | nil => simp [agree]
      | cons b rest => simp [agree, ih]

/-- Trying one period after the other finds the shortest one that repeats. -/
theorem repeatFrom?_eq_some_iff {tries period found : Nat} :
    repeatFrom? items tries period (items.drop period) = some found ↔
      period ≤ found ∧ found < period + tries ∧ Repeats found items ∧
        ∀ shorter, period ≤ shorter → shorter < found → ¬Repeats shorter items := by
  have hagree (period : Nat) :
      agree period items (items.drop period) = true ↔ Repeats period items := by
    simp only [agree_eq_true_iff, List.getElem?_drop, Repeats]
  induction tries generalizing period with
  | zero =>
    simp only [repeatFrom?, reduceCtorEq, false_iff]
    omega
  | succ tries ih =>
    rw [repeatFrom?, List.tail_drop]
    split
    case isTrue hrepeats =>
      rw [hagree] at hrepeats
      constructor
      · intro heq
        obtain rfl := Option.some.inj heq
        exact ⟨Nat.le_refl _, by omega, hrepeats, by omega⟩
      · rintro ⟨hle, -, -, hshorter⟩
        have hnot := mt (hshorter period (Nat.le_refl _)) (not_not_intro hrepeats)
        exact congrArg some (by omega)
    case isFalse hnot =>
      rw [hagree] at hnot
      refine ih.trans ?_
      constructor
      · rintro ⟨hle, hlt, hfound, hshorter⟩
        refine ⟨by omega, by omega, hfound, fun shorter hperiod hlt' => ?_⟩
        rcases Nat.eq_or_lt_of_le hperiod with rfl | hperiod
        · exact hnot
        · exact hshorter shorter hperiod hlt'
      · rintro ⟨hle, hlt, hfound, hshorter⟩
        have hne : period ≠ found := by
          rintro rfl
          exact hnot hfound
        exact ⟨by omega, by omega, hfound, fun shorter hperiod => hshorter shorter (by omega)⟩

/-- The period that is dropped is the shortest one that the last `size` calls repeat. -/
theorem shortestRepeat?_eq_some_iff {period : Nat} :
    gram.shortestRepeat? size = some period ↔
      1 ≤ period ∧ 2 * period ≤ size ∧ Repeats period gram.items ∧
        ∀ shorter, 1 ≤ shorter → shorter < period → ¬Repeats shorter gram.items := by
  rw [shortestRepeat?, ← List.drop_one, repeatFrom?_eq_some_iff]
  constructor
  · rintro ⟨hpos, hlt, hrepeats⟩
    exact ⟨hpos, by omega, hrepeats⟩
  · rintro ⟨hpos, hle, hrepeats, hshorter⟩
    -- a repetition has as many calls as its two periods
    have hcount : 2 * period ≤ gram.count := by
      obtain ⟨a, b, -, hb, -⟩ := hrepeats (period - 1) (by omega)
      have hlt := (List.getElem?_eq_some_iff.mp hb).1
      rw [gram.count_eq]
      omega
    exact ⟨hpos, by omega, hrepeats, hshorter⟩

/-- Whether a list ends with a repetition only depends on the calls in it. -/
theorem repeats_congr {period : Nat} (hperiod : 2 * period ≤ size)
    (hitems : items.take size = items'.take size) :
    Repeats period items ↔ Repeats period items' := by
  have hget {i : Nat} (hi : i < size) : items[i]? = items'[i]? := by
    rw [← List.getElem?_take_of_lt hi, hitems, List.getElem?_take_of_lt hi]
  apply forall₂_congr
  intro i hi
  rw [hget (by omega), hget (by omega)]

/-- Grams with the same last calls end with the same repetition. -/
theorem shortestRepeat?_congr (hitems : full.items.take size = short.items.take size) :
    full.shortestRepeat? size = short.shortestRepeat? size := by
  apply Option.ext
  intro period
  simp only [shortestRepeat?_eq_some_iff]
  apply and_congr_right
  intro hpos
  apply and_congr_right
  intro hle
  apply and_congr (repeats_congr hle hitems)
  apply forall₃_congr
  intro shorter hshorter hlt
  rw [repeats_congr (by omega) hitems]

/-- The n-gram that a gram ends with only depends on its last calls. -/
theorem window?_congr (hitems : full.items.take size = short.items.take size) :
    full.window? size = short.window? size := by
  have hlength := congrArg List.length hitems
  rw [List.length_take, List.length_take, ← full.count_eq, ← short.count_eq] at hlength
  have hcount : size ≤ full.count ↔ size ≤ short.count := by omega
  simp only [window?, hcount, hitems]

theorem take_push (hitems : full.items.take (size - 1) = short.items.take (size - 1))
    (item : GramItem) : (full.push item).items.take size = (short.push item).items.take size := by
  cases size with
  | zero => rfl
  | succ size => simpa using hitems

/-- A call behind grams that agree on all but one of the last `size` calls has the same effect. -/
theorem call_congr (hitems : full.items.take (size - 1) = short.items.take (size - 1)) :
    (∃ dropped, (full.call size allow item).1 = (full.push item).dropLast dropped ∧
      (short.call size allow item).1 = (short.push item).dropLast dropped) ∧
    (full.call size allow item).2 = (short.call size allow item).2 := by
  have hwindow := window?_congr (take_push hitems item)
  have hrepeat := shortestRepeat?_congr (take_push hitems item)
  simp only [call, hwindow, hrepeat]
  split
  case h_1 period _ => exact ⟨⟨period, rfl, rfl⟩, rfl⟩
  case h_2 => exact ⟨⟨0, rfl, rfl⟩, rfl⟩

/-! ## Grams that are long enough -/

/-- A gram holds the last calls of another one: all of them, or all that matter to the next call. -/
structure Trimmed (size : Nat) (full short : Gram) : Prop where
  last : short.items <+: full.items
  enough : short.count = full.count ∨ size ≤ short.count + 1

theorem count_keepLast (size : Nat) (gram : Gram) :
    (gram.keepLast size).count = min size gram.count := by
  rw [(gram.keepLast size).count_eq, gram.count_eq, items_keepLast, List.length_take]

/-- Forgetting all but the last calls leaves enough. -/
theorem trimmed_keepLast (size : Nat) (gram : Gram) : Trimmed size gram (gram.keepLast size) := by
  have hcount := count_keepLast size gram
  refine ⟨?_, by omega⟩
  rw [items_keepLast]
  exact List.take_prefix _ _

namespace Trimmed

theorem take_eq (h : Trimmed size full short) :
    full.items.take (size - 1) = short.items.take (size - 1) := by
  have htake := List.prefix_iff_eq_take.mp h.last
  rcases h.enough with hcount | hcount
  · rw [h.last.eq_of_length (by rw [← short.count_eq, ← full.count_eq, hcount])]
  · rw [htake, List.take_take, ← short.count_eq, Nat.min_eq_left (by omega)]

/-- The next call completes the same n-gram. -/
theorem call_snd (h : Trimmed size full short) (item : GramItem) :
    (full.call size allow item).2 = (short.call size allow item).2 :=
  (call_congr h.take_eq).2

/-- After a call the shorter gram still holds the last calls of the other. -/
theorem last_call (h : Trimmed size full short) (item : GramItem) :
    (short.call size allow item).1.items <+: (full.call size allow item).1.items := by
  obtain ⟨dropped, hfull, hshort⟩ := (call_congr h.take_eq).1
  rw [hfull, hshort]
  exact ((List.prefix_cons_inj item).mpr h.last).drop dropped

end Trimmed

/-- Calls complete the same n-grams as long as the shorter gram holds what matters. -/
theorem windows_eq_of_trimmed (h : ∀ made, made <+: items →
      Trimmed size (full.afterCalls size allow made) (short.afterCalls size allow made)) :
    windows size allow short items = windows size allow full items := by
  induction items generalizing full short with
  | nil => rfl
  | cons item items ih =>
    have hstart : Trimmed size full short := h [] List.nil_prefix
    rw [windows, windows, hstart.call_snd item]
    congr 1
    apply ih
    intro made hmade
    exact h (item :: made) ((List.prefix_cons_inj item).mpr hmade)

/-- What a call keeps of two grams, further calls keep as well. -/
theorem afterCalls_keeps {P : Gram → Gram → Prop}
    (hcall : ∀ full short item, P full short →
      P (full.call size allow item).1 (short.call size allow item).1)
    (h : P full short) (made : List GramItem) :
    P (full.afterCalls size allow made) (short.afterCalls size allow made) := by
  induction made generalizing full short with
  | nil => exact h
  | cons item made ih => exact ih (hcall full short item h)

/-- Where repetitions are allowed, a trimmed gram stays long enough. -/
theorem Trimmed.call_allowed (h : Trimmed size full short) (item : GramItem) :
    Trimmed size (full.call size true item).1 (short.call size true item).1 := by
  refine ⟨h.last_call item, ?_⟩
  have henough := h.enough
  simp only [call_of_allowed, push]
  omega

/-- If repetitions are allowed, a gram only grows. -/
theorem windows_keepLast_of_allowed (gram : Gram) (items : List GramItem) :
    windows size true (gram.keepLast size) items = windows size true gram items := by
  apply windows_eq_of_trimmed
  intro made _
  exact afterCalls_keeps (P := Trimmed size) (fun _ _ item h => h.call_allowed item)
    (trimmed_keepLast size gram) made

/-- A shorter gram that keeps enough calls at every step stays trimmed. -/
theorem trimmed_afterCalls {calls : List GramItem}
    (hcalls : ∀ made, made <+: calls →
      (short.afterCalls size allow made).count = (full.afterCalls size allow made).count ∨
        size ≤ (short.afterCalls size allow made).count + 1)
    (h : Trimmed size full short) {made : List GramItem} (hmade : made <+: calls) :
    Trimmed size (full.afterCalls size allow made) (short.afterCalls size allow made) := by
  induction made using List.reverseRecOn with
  | nil => exact h
  | append_singleton made item ih =>
    have hbefore := ih ((List.prefix_append made [item]).trans hmade)
    refine ⟨?_, hcalls _ hmade⟩
    rw [afterCalls_append_singleton, afterCalls_append_singleton]
    exact hbefore.last_call item

/-! ## Short n-grams -/

/-- No call behind a gram completes a repetition of two calls. -/
def Unpaired (size : Nat) (gram : Gram) : Prop :=
  ∀ item, (gram.push item).shortestRepeat? size ≠ some 2

/-- Where a repetition of two calls has been dropped, the next call does not complete another one:
the two would have been a repetition before. -/
theorem SquareFree.unpaired (h : gram.SquareFree size)
    (hrepeat : (gram.push item).shortestRepeat? size = some 2) :
    ((gram.push item).dropLast 2).Unpaired size := by
  intro next hnext
  obtain ⟨-, hsize, hfirst, -⟩ := shortestRepeat?_eq_some_iff.mp hrepeat
  obtain ⟨-, -, hsecond, -⟩ := shortestRepeat?_eq_some_iff.mp hnext
  obtain ⟨a, b, ha, hb, hab⟩ := hfirst 1 (by omega)
  obtain ⟨c, d, hc, hd, hcd⟩ := hsecond 1 (by omega)
  simp only [items_push, items_dropLast, List.getElem?_cons_succ, List.drop_succ_cons,
    List.getElem?_drop] at ha hb hc hd
  apply h
  have hlength := (List.getElem?_eq_some_iff.mp hd).1
  apply HasSquare.of_agreement (i := 0) (by omega : 1 ≤ 2) hsize
  · rw [List.length_map]
    omega
  · intro j hj
    rw [List.getElem?_map, List.getElem?_map]
    rcases (by omega : j = 0 ∨ j = 1) with rfl | rfl
    · simp [ha, hb, hab]
    · simp [hc, hd, hcd]

/-- A gram holds the last calls of another one without squares, and never loses more than one of
the last `size`. -/
structure Covered (size : Nat) (full short : Gram) : Prop where
  free : full.SquareFree size
  last : short.items <+: full.items
  enough : short.count = full.count ∨ size ≤ short.count ∨
    size ≤ short.count + 1 ∧ short.Unpaired size

namespace Covered

/-- A gram that loses so little is long enough. -/
theorem trimmed (h : Covered size full short) : Trimmed size full short := by
  refine ⟨h.last, ?_⟩
  rcases h.enough with hcount | hcount | hcount
  · exact .inl hcount
  · exact .inr (by omega)
  · exact .inr hcount.1

theorem squareFree_short (h : Covered size full short) : short.SquareFree size :=
  fun hsquare => h.free (hsquare.mono (h.last.map _).isInfix)

/-- For short n-grams a call does not make it lose more. -/
theorem call (h : Covered size full short) (hsize : size ≤ 5) (item : GramItem) :
    Covered size (full.call size false item).1 (short.call size false item).1 := by
  refine ⟨h.free.call item, h.trimmed.last_call item, ?_⟩
  have hsame := shortestRepeat?_congr (take_push h.trimmed.take_eq item)
  cases hrepeat : (short.push item).shortestRepeat? size with
  | none =>
    rw [call_of_none hrepeat, call_of_none (hsame.trans hrepeat)]
    rcases h.enough with hcount | hcount | ⟨hcount, -⟩
    · exact .inl (congrArg (· + 1) hcount)
    · exact .inr (.inl (Nat.le_succ_of_le hcount))
    · exact .inr (.inl hcount)
  | some period =>
    obtain ⟨hpos, hle, -⟩ := shortestRepeat?_eq_some_iff.mp hrepeat
    rw [call_of_some hrepeat, call_of_some (hsame.trans hrepeat)]
    rcases h.enough with hcount | hcount | ⟨hcount, hunpaired⟩
    · exact .inl (congrArg (· + 1 - period) hcount)
    · rcases (by omega : period = 1 ∨ period = 2) with rfl | rfl
      · exact .inr (.inl hcount)
      · refine .inr (.inr ⟨?_, h.squareFree_short.unpaired hrepeat⟩)
        simp only [dropLast, push]
        omega
    · rcases (by omega : period = 1 ∨ period = 2) with rfl | rfl
      · -- the repeated call is dropped, which leaves the gram as it was
        exact .inr (.inr ⟨hcount, hunpaired⟩)
      · exact absurd hrepeat (hunpaired item)

end Covered

/-- Forgetting all but the last calls loses none of them. -/
theorem covered_keepLast (h : gram.SquareFree size) : Covered size gram (gram.keepLast size) := by
  have hcount := count_keepLast size gram
  exact ⟨h, (trimmed_keepLast size gram).last, by omega⟩

/-- So a search for at most five calls at a time may forget all older ones. -/
theorem windows_keepLast_of_le_five (hsize : size ≤ 5) (h : gram.SquareFree size)
    (items : List GramItem) :
    windows size false (gram.keepLast size) items = windows size false gram items := by
  apply windows_eq_of_trimmed
  intro made _
  have hcovered := afterCalls_keeps (P := Covered size) (fun _ _ item h => h.call hsize item)
    (covered_keepLast h) made
  exact hcovered.trimmed

/-! ## Long n-grams -/

/-- A call that is told from others by a number. -/
def countedCall (number : Nat) : GramItem :=
  ⟨⟨none, toString number⟩, ⟨⟨⟨"", ""⟩, number⟩, []⟩⟩

theorem target_countedCall_inj {i j : Nat} :
    (countedCall i).target = (countedCall j).target ↔ i = j := by
  simp [countedCall, Nat.repr_inj]

/-- The calls with the given numbers, latest first. -/
def ofNumbers (numbers : List Nat) : Gram :=
  ⟨numbers.map countedCall, numbers.length, by rw [List.length_map]⟩

variable {numbers : List Nat} {number : Nat}

/-- Calls repeat as their numbers do. -/
theorem repeats_map_countedCall {period : Nat} :
    Repeats period (numbers.map countedCall) ↔
      ∀ i < period, ∃ number, numbers[i]? = some number ∧ numbers[period + i]? = some number := by
  simp only [Repeats, List.getElem?_map, Option.map_eq_some_iff]
  apply forall₂_congr
  intro i hi
  constructor
  · rintro ⟨_, _, ⟨a, ha, rfl⟩, ⟨b, hb, rfl⟩, hab⟩
    obtain rfl := target_countedCall_inj.mp hab
    exact ⟨a, ha, hb⟩
  · rintro ⟨number, ha, hb⟩
    exact ⟨_, _, ⟨number, ha, rfl⟩, ⟨number, hb, rfl⟩, rfl⟩

/-- The numbers below a bound, in descending order. -/
def below : Nat → List Nat
  | 0 => []
  | bound + 1 => bound :: below bound

theorem length_below (bound : Nat) : (below bound).length = bound := by
  induction bound with
  | zero => rfl
  | succ bound ih => rw [below, List.length_cons, ih]

/-- Where each number stands among those below a bound. -/
theorem getElem?_below {bound i : Nat} :
    (below bound)[i]? = some number ↔ i + number + 1 = bound := by
  induction bound generalizing i with
  | zero => simp [below]
  | succ bound ih =>
    cases i with
    | zero =>
      simp only [below, List.getElem?_cons_zero, Option.some.injEq]
      omega
    | succ i =>
      rw [below, List.getElem?_cons_succ, ih]
      omega

/-- A call that completes no repetition stays. -/
theorem call_ofNumbers
    (h : ∀ period, 1 ≤ period → ¬Repeats period ((number :: numbers).map countedCall)) :
    (ofNumbers numbers).call size false (countedCall number) =
      (ofNumbers (number :: numbers), (ofNumbers (number :: numbers)).window? size) := by
  apply call_of_none
  rw [Option.eq_none_iff_forall_ne_some]
  intro period hperiod
  obtain ⟨hpos, -, hrepeats, -⟩ := shortestRepeat?_eq_some_iff.mp hperiod
  exact h period hpos hrepeats

/-- A new number completes no repetition. -/
theorem not_repeats_below {bound period : Nat} (hpos : 1 ≤ period) :
    ¬Repeats period ((bound :: below bound).map countedCall) := by
  rw [repeats_map_countedCall]
  intro h
  obtain ⟨number, hfirst, hagain⟩ := h 0 (by omega)
  obtain ⟨period, rfl⟩ := Nat.exists_eq_add_of_le' hpos
  simp only [List.getElem?_cons_zero, Option.some.injEq, Nat.add_zero, List.getElem?_cons_succ,
    getElem?_below] at hfirst hagain
  omega

/-- Calls with ascending numbers all stay, since no two of them are the same. -/
theorem afterCalls_range (size bound : Nat) :
    empty.afterCalls size false ((List.range bound).map countedCall) =
      ofNumbers (below bound) := by
  induction bound with
  | zero => rfl
  | succ bound ih =>
    rw [List.range_succ, List.map_append, List.map_singleton, afterCalls_append_singleton, ih,
      call_ofNumbers fun _ => not_repeats_below]
    rfl

/-- All numbers below `size`, of which the last three are taken up again one after the other. -/
def again (size : Nat) : Nat → List Nat
  | 0 => below size
  | count + 1 => (size - 3 + count) :: again size count

/-- Where each number stands after some have been taken up again. -/
theorem getElem?_again (hsize : 6 ≤ size) {count i : Nat} :
    (again size count)[i]? = some number ↔
      i < count ∧ number + i + 4 = size + count ∨ count ≤ i ∧ i + number + 1 = size + count := by
  induction count generalizing i with
  | zero =>
    rw [again, getElem?_below]
    omega
  | succ count ih =>
    cases i with
    | zero =>
      rw [again, List.getElem?_cons_zero, Option.some.injEq]
      omega
    | succ i =>
      rw [again, List.getElem?_cons_succ, ih]
      omega

/-- Only the third number that is taken up again completes a repetition. -/
theorem eq_three_of_repeats_again (hsize : 6 ≤ size) {count period : Nat} (hcount : count ≤ 3)
    (hpos : 1 ≤ period) (h : Repeats period ((again size count).map countedCall)) :
    period = 3 ∧ count = 3 := by
  rw [repeats_map_countedCall] at h
  simp only [getElem?_again hsize] at h
  obtain ⟨last, hlast⟩ := h 0 hpos
  have hperiod : period = 3 := by omega
  refine ⟨hperiod, ?_⟩
  by_contra hne
  obtain ⟨number, hnumber⟩ := h count (by omega)
  omega

/-- The third call that is taken up again completes a repetition of three calls. -/
theorem shortestRepeat?_again (hsize : 6 ≤ size) :
    (ofNumbers (again size 3)).shortestRepeat? size = some 3 := by
  rw [shortestRepeat?_eq_some_iff]
  refine ⟨by omega, by omega, ?_, ?_⟩
  · refine repeats_map_countedCall.mpr fun i hi => ⟨size - 1 - i, ?_, ?_⟩
    · rw [getElem?_again hsize]
      omega
    · rw [getElem?_again hsize]
      omega
  · intro shorter hpos hlt hrepeats
    have hthree := (eq_three_of_repeats_again hsize (Nat.le_refl 3) hpos hrepeats).1
    omega

/-- Before that, calls can lead to each of these grams. -/
theorem reached_again (hsize : 6 ≤ size) {count : Nat} (hcount : count ≤ 2) :
    (ofNumbers (again size count)).Reached size false := by
  induction count with
  | zero => exact ⟨_, (afterCalls_range size size).symm⟩
  | succ count ih =>
    obtain ⟨items, hitems⟩ := ih (by omega)
    refine ⟨items ++ [countedCall (size - 3 + count)], ?_⟩
    rw [afterCalls_append_singleton, ← hitems, call_ofNumbers]
    · rfl
    · intro period hpos hrepeats
      have hthree := eq_three_of_repeats_again hsize (by omega : count + 1 ≤ 3) hpos hrepeats
      omega

theorem call_snd_eq_none (h : gram.count + 1 < size) : (gram.call size allow item).2 = none := by
  rw [call]
  split
  · rfl
  · exact if_neg (Nat.not_le_of_lt h)

/-- A gram that is long enough ends with an n-gram. -/
theorem window?_ne_none (hpos : 0 < size) (h : size ≤ gram.count) : gram.window? size ≠ none := by
  rw [window?, if_pos h]
  split
  · exact Option.some_ne_none _
  case h_2 hnil =>
    have hlength := congrArg List.length hnil
    rw [List.length_reverse, List.length_take, ← gram.count_eq, List.length_nil] at hlength
    omega

/-- A repetition that reaches back behind the kept calls costs an n-gram. -/
theorem windows_again_ne (hsize : 6 ≤ size) :
    windows size false ((ofNumbers (again size 2)).keepLast size)
        [countedCall (size - 3 + 2), countedCall size] ≠
      windows size false (ofNumbers (again size 2))
        [countedCall (size - 3 + 2), countedCall size] := by
  have hrepeat : ((ofNumbers (again size 2)).push (countedCall (size - 3 + 2))).shortestRepeat?
      size = some 3 := shortestRepeat?_again hsize
  have htrimmed := trimmed_keepLast size (ofNumbers (again size 2))
  have hshort := shortestRepeat?_congr (take_push htrimmed.take_eq (countedCall (size - 3 + 2)))
  rw [hrepeat] at hshort
  have hfull : ((ofNumbers (again size 2)).push (countedCall (size - 3 + 2))).dropLast 3 =
      ofNumbers (below size) := rfl
  simp only [windows, call_of_some hrepeat, call_of_some hshort.symm, hfull,
    call_ofNumbers fun _ => not_repeats_below]
  rw [call_snd_eq_none]
  · intro heq
    have hnone := (List.cons.inj (List.cons.inj heq).2).1
    have hlong : size ≤ (ofNumbers (size :: below size)).count := by
      simp [ofNumbers, length_below]
    exact window?_ne_none (by omega) hlong hnone.symm
  · have hcount := count_keepLast size (ofNumbers (again size 2))
    simp only [dropLast, push]
    omega

/-- Trimming a gram to the size of n-grams makes no difference to what further calls complete, for
all grams and calls, exactly if repetitions are allowed or n-grams have at most five calls. For
every size it makes none along calls behind which the trimmed gram has as many calls as the whole
one, or lacks at most one to an n-gram. -/
theorem windows_keepLast_iff (size : Nat) (allow : Bool) :
    ((∀ gram : Gram, gram.Reached size allow → ∀ items,
          windows size allow (gram.keepLast size) items = windows size allow gram items) ↔
        allow = true ∨ size ≤ 5) ∧
      ∀ (gram : Gram) (items : List GramItem),
        (∀ made, made <+: items →
          ((gram.keepLast size).afterCalls size allow made).count =
              (gram.afterCalls size allow made).count ∨
            size ≤ ((gram.keepLast size).afterCalls size allow made).count + 1) →
        windows size allow (gram.keepLast size) items = windows size allow gram items := by
  refine ⟨⟨fun h => ?_, fun h gram hgram items => ?_⟩, fun gram items hitems => ?_⟩
  · by_contra hnot
    obtain ⟨hallow, hsize⟩ := not_or.mp hnot
    obtain rfl := Bool.eq_false_of_not_eq_true hallow
    have hlong : 6 ≤ size := by omega
    exact windows_again_ne hlong (h _ (reached_again hlong (Nat.le_refl 2)) _)
  · cases allow with
    | true => exact windows_keepLast_of_allowed gram items
    | false =>
      have hsize := h.resolve_left Bool.false_ne_true
      exact windows_keepLast_of_le_five hsize hgram.squareFree items
  · apply windows_eq_of_trimmed
    intro made hmade
    exact trimmed_afterCalls hitems (trimmed_keepLast size gram) hmade

/-- Calls `3`, `0`, `1`, `2` and `1` are trimmed to four. A repetition is dropped that leaves three
of them, and the n-gram behind it is completed all the same. Behind a longer gram, a call that
repeats nothing completes the same n-gram of size six. -/
theorem windows_keepLast_iff_pairs :
    (ofNumbers [1, 2, 1, 0, 3]).Reached 4 false ∧
      windows 4 false ((ofNumbers [1, 2, 1, 0, 3]).keepLast 4) [countedCall 2, countedCall 4] =
        windows 4 false (ofNumbers [1, 2, 1, 0, 3]) [countedCall 2, countedCall 4] ∧
      windows 4 false (ofNumbers [1, 2, 1, 0, 3]) [countedCall 2, countedCall 4] =
        [none, some ⟨countedCall 0, [countedCall 1, countedCall 2, countedCall 4]⟩] ∧
      windows 6 false ((ofNumbers (again 6 2)).keepLast 6) [countedCall 6] =
        windows 6 false (ofNumbers (again 6 2)) [countedCall 6] := by
  have hreached : (ofNumbers [1, 2, 1, 0, 3]).Reached 4 false :=
    ⟨[3, 0, 1, 2, 1].map countedCall, by decide +kernel⟩
  refine ⟨hreached, (windows_keepLast_iff 4 false).1.mpr (.inr (by decide)) _ hreached _,
    by decide +kernel, (windows_keepLast_iff 6 false).2 _ _ fun made hmade => ?_⟩
  rcases List.prefix_cons_iff.mp hmade with rfl | ⟨rest, rfl, hrest⟩
  · decide +kernel
  · obtain rfl := List.prefix_nil.mp hrest
    decide +kernel

/-- Calls `0` to `5`, `3` and `4` are trimmed to six. The call `5` completes a repetition that
leaves four of them, and the n-gram that the call `6` completes is lost. -/
theorem keepLast_loses_window :
    (ofNumbers [4, 3, 5, 4, 3, 2, 1, 0]).Reached 6 false ∧
      windows 6 false ((ofNumbers [4, 3, 5, 4, 3, 2, 1, 0]).keepLast 6)
        [countedCall 5, countedCall 6] = [none, none] ∧
      windows 6 false (ofNumbers [4, 3, 5, 4, 3, 2, 1, 0]) [countedCall 5, countedCall 6] =
        [none, some ⟨countedCall 1, [2, 3, 4, 5, 6].map countedCall⟩] :=
  ⟨⟨[0, 1, 2, 3, 4, 5, 3, 4].map countedCall, by decide +kernel⟩, by decide +kernel,
    by decide +kernel⟩

end Gram

end CallNgrams
