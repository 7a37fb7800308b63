/-!
# Loops

A loop over a list that may fail ends with a result if each round does. What the rounds establish or
return then holds of the whole. A loop that cannot fail is known by what one round does.
-/

namespace CallNgrams

variable {α β ε : Type} {f : α → Except ε β}

theorem exists_of_map_eq_ok {x : Except ε α} {g : α → β} {y : β} (h : x.map g = .ok y) :
    ∃ a, x = .ok a ∧ g a = y := by
  cases x with
  | error e => cases h
  | ok a => exact ⟨a, rfl, Except.ok.inj h⟩

theorem exists_map_ok_iff {x : Except ε α} {g : α → β} :
    (∃ y, x.map g = .ok y) ↔ ∃ a, x = .ok a := by
  cases x <;> simp [Except.map]

theorem exists_of_bind_eq_ok {x : Except ε α} {g : α → Except ε β} {y : β}
    (h : (x >>= g) = .ok y) : ∃ a, x = .ok a ∧ g a = .ok y := by
  cases x with
  | error e => cases h
  | ok a => exact ⟨a, rfl, h⟩

theorem exists_bind_ok_iff {x : Except ε α} {g : α → Except ε β} :
    (∃ y, (x >>= g) = .ok y) ↔ ∃ a, x = .ok a ∧ ∃ y, g a = .ok y := by
  cases x <;> simp [bind, Except.bind]

/-- A computation in two parts fails with the error of the part that fails. -/
theorem of_bind_eq_error {x : Except ε α} {g : α → Except ε β} {e : ε}
    (h : (x >>= g) = .error e) : x = .error e ∨ ∃ a, x = .ok a ∧ g a = .error e := by
  cases x with
  | error e' => exact .inl (congrArg _ (Except.error.inj h))
  | ok a => exact .inr ⟨a, rfl, h⟩

theorem of_map_eq_error {x : Except ε α} {g : α → β} {e : ε} (h : x.map g = .error e) :
    x = .error e := by
  cases x with
  | error e' => exact congrArg _ (Except.error.inj h)
  | ok a => cases h

/-- Mapping with a function that has the values of a total one gives these values. -/
theorem mapM_eq_ok {g : α → β} (xs : List α) (h : ∀ x ∈ xs, f x = .ok (g x)) :
    xs.mapM f = .ok (xs.map g) := by
  induction xs with
  | nil => rfl
  | cons x xs ih =>
    rw [List.mapM_cons, h x List.mem_cons_self,
      ih fun x' hx' => h x' (List.mem_cons_of_mem _ hx')]
    rfl

/-- Mapping with a function that succeeds on every member of a list succeeds. -/
theorem exists_mapM_ok {R : α → β → Prop} (xs : List α)
    (h : ∀ x ∈ xs, ∃ y, f x = .ok y ∧ R x y) :
    ∃ ys, xs.mapM f = .ok ys ∧ (∀ y ∈ ys, ∃ x ∈ xs, R x y) ∧ ∀ x ∈ xs, ∃ y ∈ ys, R x y := by
  induction xs with
  | nil => exact ⟨[], rfl, by simp, by simp⟩
  | cons x xs ih =>
    obtain ⟨y, hy, hr⟩ := h x (by simp)
    obtain ⟨ys, hys, hback, hforth⟩ := ih fun x' hx' => h x' (List.mem_cons_of_mem _ hx')
    refine ⟨y :: ys, ?_, ?_, ?_⟩
    · rw [List.mapM_cons, hy, hys]
      rfl
    · intro y' hy'
      rcases List.mem_cons.mp hy' with rfl | hy'
      · exact ⟨x, by simp, hr⟩
      · obtain ⟨x', hx', hr'⟩ := hback y' hy'
        exact ⟨x', List.mem_cons_of_mem _ hx', hr'⟩
    · intro x' hx'
      rcases List.mem_cons.mp hx' with rfl | hx'
      · exact ⟨y, by simp, hr⟩
      · obtain ⟨y', hy', hr'⟩ := hforth x' hx'
        exact ⟨y', List.mem_cons_of_mem _ hy', hr'⟩

/-- If mapping over a list succeeds, it does so on the first member and on the others. -/
theorem mapM_cons_eq_ok {x : α} {xs : List α} {ys : List β} (h : (x :: xs).mapM f = .ok ys) :
    ∃ y rest, f x = .ok y ∧ xs.mapM f = .ok rest ∧ ys = y :: rest := by
  rw [List.mapM_cons] at h
  cases hx : f x with
  | error e =>
    rw [hx] at h
    cases h
  | ok y =>
    cases hxs : xs.mapM f with
    | error e =>
      rw [hx, hxs] at h
      cases h
    | ok rest =>
      rw [hx, hxs] at h
      exact ⟨y, rest, rfl, rfl, (Except.ok.inj h).symm⟩

/-- If mapping over a list succeeds, the function succeeded on every member. -/
theorem exists_ok_of_mapM {xs : List α} {ys : List β} (h : xs.mapM f = .ok ys) :
    ∀ x ∈ xs, ∃ y, f x = .ok y := by
  induction xs generalizing ys with
  | nil => simp
  | cons x xs ih =>
    obtain ⟨y, rest, hx, hxs, -⟩ := mapM_cons_eq_ok h
    intro x' hx'
    rcases List.mem_cons.mp hx' with rfl | hx'
    · exact ⟨y, hx⟩
    · exact ih hxs x' hx'

/-- Mapping over a list succeeds exactly if the function does on every member. -/
theorem exists_mapM_ok_iff {xs : List α} :
    (∃ ys, xs.mapM f = .ok ys) ↔ ∀ x ∈ xs, ∃ y, f x = .ok y := by
  constructor
  · rintro ⟨ys, hys⟩
    exact exists_ok_of_mapM hys
  · intro h
    obtain ⟨ys, hys, -⟩ := exists_mapM_ok (f := f) (R := fun _ _ => True) xs fun x hx => by
      obtain ⟨y, hy⟩ := h x hx
      exact ⟨y, hy, trivial⟩
    exact ⟨ys, hys⟩

/-- If mapping over a list succeeds, the members of the result are values of the function. -/
theorem exists_of_mem_mapM {xs : List α} {ys : List β} (h : xs.mapM f = .ok ys) :
    ∀ y ∈ ys, ∃ x ∈ xs, f x = .ok y := by
  induction xs generalizing ys with
  | nil =>
    obtain rfl : [] = ys := Except.ok.inj h
    simp
  | cons x xs ih =>
    obtain ⟨y, rest, hx, hxs, rfl⟩ := mapM_cons_eq_ok h
    intro y' hy'
    rcases List.mem_cons.mp hy' with rfl | hy'
    · exact ⟨x, by simp, hx⟩
    · obtain ⟨x', hx', hf⟩ := ih hxs y' hy'
      exact ⟨x', List.mem_cons_of_mem _ hx', hf⟩

/-- If mapping over a list succeeds, each place of the result holds the value of that place. -/
theorem getElem?_of_mapM {xs : List α} {ys : List β} (h : xs.mapM f = .ok ys) {k : Nat} {x : α}
    (hx : xs[k]? = some x) : ∃ y, f x = .ok y ∧ ys[k]? = some y := by
  induction xs generalizing ys k with
  | nil => cases hx
  | cons first xs ih =>
    obtain ⟨y, rest, hfirst, hxs, rfl⟩ := mapM_cons_eq_ok h
    cases k with
    | zero =>
      obtain rfl : first = x := Option.some.inj hx
      exact ⟨y, hfirst, rfl⟩
    | succ k => exact ih hxs hx

/-- If mapping over a list succeeds and the function keeps some view of its argument, the result has
the view of the list. -/
theorem map_eq_of_mapM {γ : Type} {p : α → γ} {q : β → γ} {xs : List α} {ys : List β}
    (h : xs.mapM f = .ok ys) (hview : ∀ x ∈ xs, ∀ y, f x = .ok y → q y = p x) :
    ys.map q = xs.map p := by
  induction xs generalizing ys with
  | nil =>
    obtain rfl : [] = ys := Except.ok.inj h
    rfl
  | cons x xs ih =>
    obtain ⟨y, rest, hx, hxs, rfl⟩ := mapM_cons_eq_ok h
    rw [List.map_cons, List.map_cons, hview x (by simp) y hx,
      ih hxs fun x' hx' => hview x' (List.mem_cons_of_mem _ hx')]

/-- If mapping over a list succeeds, the result is that of a total function with the same values. -/
theorem eq_map_of_mapM {xs : List α} {ys : List β} {g : α → β} (h : xs.mapM f = .ok ys)
    (hg : ∀ x ∈ xs, ∀ y, f x = .ok y → y = g x) : ys = xs.map g := by
  rw [← map_eq_of_mapM (q := id) h hg, List.map_id]

/-- If mapping over a list fails, it does so with an error of the function on some member. -/
theorem exists_of_mapM_eq_error {xs : List α} {e : ε} (h : xs.mapM f = .error e) :
    ∃ x ∈ xs, f x = .error e := by
  induction xs with
  | nil => cases h
  | cons x xs ih =>
    rw [List.mapM_cons] at h
    rcases of_bind_eq_error h with hx | ⟨y, -, h⟩
    · exact ⟨x, List.mem_cons_self, hx⟩
    · rcases of_bind_eq_error h with hxs | ⟨ys, -, h⟩
      · obtain ⟨x', hx', hf⟩ := ih hxs
        exact ⟨x', List.mem_cons_of_mem _ hx', hf⟩
      · cases h

/-- If mapping over the indices below a bound fails, it does so at the first index at which the
function fails. -/
theorem exists_of_mapM_range_eq_error {f : Nat → Except ε β} {bound : Nat} {e : ε}
    (h : (List.range bound).mapM f = .error e) :
    ∃ k < bound, f k = .error e ∧ ∀ j < k, ∃ y, f j = .ok y := by
  induction bound with
  | zero => cases h
  | succ bound ih =>
    rw [List.range_succ, List.mapM_append, List.mapM_cons, List.mapM_nil] at h
    cases hfirst : (List.range bound).mapM f with
    | error e' =>
      rw [hfirst] at h
      obtain rfl : e' = e := Except.error.inj h
      obtain ⟨k, hk, hrest⟩ := ih hfirst
      exact ⟨k, Nat.lt_succ_of_lt hk, hrest⟩
    | ok ys =>
      rw [hfirst] at h
      cases hlast : f bound with
      | error e' =>
        rw [hlast] at h
        obtain rfl : e' = e := Except.error.inj h
        exact ⟨bound, Nat.lt_succ_self bound, hlast, fun j hj =>
          exists_ok_of_mapM hfirst j (List.mem_range.mpr hj)⟩
      | ok y =>
        rw [hlast] at h
        cases h

/-- If a loop over a list succeeds, the first round does, and so does the loop over the others. -/
theorem foldlM_cons_eq_ok {σ : Type} {f : σ → α → Except ε σ} {x : α} {xs : List α} {s s' : σ}
    (h : (x :: xs).foldlM f s = .ok s') : ∃ mid, f s x = .ok mid ∧ xs.foldlM f mid = .ok s' := by
  rw [List.foldlM_cons] at h
  exact exists_of_bind_eq_ok h

/-- A loop over a list succeeds if each round does in every state. -/
theorem exists_foldlM_ok {σ : Type} {f : σ → α → Except ε σ} (xs : List α) (s : σ)
    (h : ∀ x ∈ xs, ∀ s, ∃ s', f s x = .ok s') : ∃ s', xs.foldlM f s = .ok s' := by
  induction xs generalizing s with
  | nil => exact ⟨s, rfl⟩
  | cons x xs ih =>
    obtain ⟨mid, hmid⟩ := h x List.mem_cons_self s
    obtain ⟨s', hs'⟩ := ih mid fun x' hx' => h x' (List.mem_cons_of_mem _ hx')
    refine ⟨s', ?_⟩
    rw [List.foldlM_cons, hmid]
    exact hs'

/-- A loop that succeeds ends in the same state if its rounds are replaced by ones that have the
same results. -/
theorem foldlM_ok_congr {σ : Type} {f g : σ → α → Except ε σ} {xs : List α} {s s' : σ}
    (hfg : ∀ x ∈ xs, ∀ s s', f s x = .ok s' → g s x = .ok s') (h : xs.foldlM f s = .ok s') :
    xs.foldlM g s = .ok s' := by
  induction xs generalizing s with
  | nil => exact h
  | cons x xs ih =>
    obtain ⟨mid, hmid, hrest⟩ := foldlM_cons_eq_ok h
    rw [List.foldlM_cons, hfg x List.mem_cons_self s mid hmid]
    exact ih (fun x' hx' => hfg x' (List.mem_cons_of_mem _ hx')) hrest

/-- Loops whose rounds are the same for every member of a list are the same. -/
theorem foldlM_congr {σ : Type} {f g : σ → α → Except ε σ} {xs : List α} {s : σ}
    (h : ∀ x ∈ xs, ∀ s, f s x = g s x) : xs.foldlM f s = xs.foldlM g s := by
  induction xs generalizing s with
  | nil => rfl
  | cons x xs ih =>
    rw [List.foldlM_cons, List.foldlM_cons, h x List.mem_cons_self s]
    refine bind_congr fun mid => ?_
    exact ih fun x' hx' => h x' (List.mem_cons_of_mem _ hx')

/-- Loops are the same if their rounds are, in the states that the rounds keep to. -/
theorem foldlM_congr_of_keeps {σ : Type} {f g : σ → α → Except ε σ} {P : σ → Prop} {xs : List α}
    {s : σ} (hround : ∀ x ∈ xs, ∀ s s', P s → f s x = .ok s' → P s')
    (h : ∀ x ∈ xs, ∀ s, P s → f s x = g s x) (hs : P s) : xs.foldlM f s = xs.foldlM g s := by
  induction xs generalizing s with
  | nil => rfl
  | cons x xs ih =>
    rw [List.foldlM_cons, List.foldlM_cons, ← h x List.mem_cons_self s hs]
    cases hmid : f s x with
    | error e => rfl
    | ok mid =>
      exact ih (fun x' hx' => hround x' (List.mem_cons_of_mem _ hx'))
        (fun x' hx' => h x' (List.mem_cons_of_mem _ hx'))
        (hround x List.mem_cons_self s mid hs hmid)

/-- If a loop succeeds, so does one whose rounds can follow its rounds, and a relation that the
rounds keep holds between the ends. -/
theorem foldlM_simulate {σ τ : Type} {f : σ → α → Except ε σ} {g : τ → α → Except ε τ}
    {R : σ → τ → Prop} {xs : List α} {s s' : σ} {t : τ}
    (hround : ∀ x ∈ xs, ∀ s s' t, R s t → f s x = .ok s' → ∃ t', g t x = .ok t' ∧ R s' t')
    (hst : R s t) (h : xs.foldlM f s = .ok s') : ∃ t', xs.foldlM g t = .ok t' ∧ R s' t' := by
  induction xs generalizing s t with
  | nil =>
    obtain rfl : s = s' := Except.ok.inj h
    exact ⟨t, rfl, hst⟩
  | cons x xs ih =>
    obtain ⟨mid, hmid, hrest⟩ := foldlM_cons_eq_ok h
    obtain ⟨mid', hmid', hrel⟩ := hround x List.mem_cons_self s mid t hst hmid
    rw [List.foldlM_cons, hmid']
    exact ih (fun x' hx' => hround x' (List.mem_cons_of_mem _ hx')) hrel hrest

/-- What every round of a loop keeps holds at its end. -/
theorem foldlM_keeps {σ : Type} {f : σ → α → Except ε σ} {P : σ → Prop} {xs : List α} {s s' : σ}
    (hround : ∀ x ∈ xs, ∀ s s', P s → f s x = .ok s' → P s') (hs : P s)
    (h : xs.foldlM f s = .ok s') : P s' := by
  induction xs generalizing s with
  | nil =>
    obtain rfl : s = s' := Except.ok.inj h
    exact hs
  | cons x xs ih =>
    obtain ⟨mid, hmid, hrest⟩ := foldlM_cons_eq_ok h
    exact ih (fun x' hx' => hround x' (List.mem_cons_of_mem _ hx'))
      (hround x List.mem_cons_self s mid hs hmid) hrest

/-- A loop over the indices below a bound that succeeds ends with what the rounds establish. -/
theorem foldlM_range_keeps {σ : Type} {f : σ → Nat → Except ε σ} {P : Nat → σ → Prop} {init s : σ}
    {bound : Nat} (hround : ∀ k < bound, ∀ s s', P k s → f s k = .ok s' → P (k + 1) s')
    (hinit : P 0 init) (h : (List.range bound).foldlM f init = .ok s) : P bound s := by
  induction bound generalizing s with
  | zero =>
    obtain rfl : init = s := Except.ok.inj h
    exact hinit
  | succ bound ih =>
    rw [List.range_succ, List.foldlM_append] at h
    obtain ⟨mid, hmid, hlast⟩ := exists_of_bind_eq_ok h
    obtain ⟨s', hround', hs⟩ := foldlM_cons_eq_ok hlast
    obtain rfl : s' = s := Except.ok.inj hs
    exact hround bound (Nat.lt_succ_self bound) mid s'
      (ih (fun k hk => hround k (Nat.lt_succ_of_lt hk)) hmid) hround'

/-- A loop over the indices below a bound succeeds if each round does, and ends with what the rounds
establish. -/
theorem foldlM_range_ok {σ : Type} {f : σ → Nat → Except ε σ} {P : Nat → σ → Prop} {init : σ}
    (hinit : P 0 init) (bound : Nat)
    (hround : ∀ k < bound, ∀ s, P k s → ∃ s', f s k = .ok s' ∧ P (k + 1) s') :
    ∃ s, (List.range bound).foldlM f init = .ok s ∧ P bound s := by
  induction bound with
  | zero => exact ⟨init, rfl, hinit⟩
  | succ bound ih =>
    obtain ⟨s, hs, hp⟩ := ih fun k hk => hround k (Nat.lt_succ_of_lt hk)
    obtain ⟨s', hs', hp'⟩ := hround bound (Nat.lt_succ_self bound) s hp
    refine ⟨s', ?_, hp'⟩
    rw [List.range_succ, List.foldlM_append, hs]
    simp only [bind, Except.bind, List.foldlM_cons, hs', List.foldlM_nil, pure, Except.pure]

/-! ## Loops that cannot fail -/

/-- If a round does to a view of the state what its entries do one after the other, the loop does
what the entries of all rounds do. -/
theorem foldl_view {σ τ : Type} {view : σ → τ} {step : σ → β → σ} {put : τ → α → τ}
    {entriesOf : β → List α} (hstep : ∀ s b, view (step s b) = (entriesOf b).foldl put (view s))
    (rounds : List β) (s : σ) :
    view (rounds.foldl step s) = (rounds.flatMap entriesOf).foldl put (view s) := by
  induction rounds generalizing s with
  | nil => rfl
  | cons round rounds ih =>
    rw [List.foldl_cons, ih, hstep, List.flatMap_cons, List.foldl_append]

/-- What holds of the end of a loop, if an entry can only establish it. -/
theorem foldl_iff {σ : Type} {step : σ → α → σ} (P : σ → Prop) {Q : α → Prop}
    (hstep : ∀ s a, P (step s a) ↔ Q a ∨ P s) (entries : List α) (s : σ) :
    P (entries.foldl step s) ↔ (∃ a ∈ entries, Q a) ∨ P s := by
  induction entries generalizing s with
  | nil => simp
  | cons a entries ih =>
    rw [List.foldl_cons, ih, hstep, or_left_comm]
    simp only [List.mem_cons, exists_eq_or_imp, or_assoc]

end CallNgrams
