import Mathlib.Data.List.Forall2
import CallNgrams.Proofs.Loop
import CallNgrams.Search.Walk

/-!
# Following tasks

Following a task performs it and then all that it leads to. What one task does to the state is all
that has to be known: its invariants hold at the end of every run, and two ways to perform tasks
that go together step by step have the same outcome.
-/

namespace CallNgrams

/-- A task is performed, and the tasks that it leads to are followed in order, the last one too. -/
theorem follow_succ {σ τ : Type} (perform : τ → σ → Except Error (σ × List τ)) (unbounded : Error)
    (depth : Nat) (task : τ) (state : σ) :
    follow perform unbounded (depth + 1) task state =
      (perform task state >>= fun result =>
        result.2.foldlM (fun state task => follow perform unbounded depth task state)
          result.1) := by
  rw [follow]
  cases perform task state with
  | error e => rfl
  | ok result =>
    obtain ⟨state, tasks⟩ := result
    rcases List.eq_nil_or_concat tasks with rfl | ⟨others, last, rfl⟩
    · rfl
    · simp only [List.concat_eq_append, List.getLast?_concat, List.dropLast_concat, bind,
        Except.bind, List.foldlM_append, List.foldlM_cons, List.foldlM_nil]
      cases others.foldlM (fun state task => follow perform unbounded depth task state) state with
      | error e => rfl
      | ok state =>
        dsimp only
        cases follow perform unbounded depth last state with
        | error e => rfl
        | ok state => rfl

/-- Following a task has the same result at every higher depth. -/
theorem follow_mono {σ τ : Type} {perform : τ → σ → Except Error (σ × List τ)} {unbounded : Error}
    {depth deeper : Nat} {task : τ} {state state' : σ} (hle : depth ≤ deeper)
    (h : follow perform unbounded depth task state = .ok state') :
    follow perform unbounded deeper task state = .ok state' := by
  induction depth generalizing deeper task state state' with
  | zero => cases h
  | succ depth ih =>
    obtain ⟨deeper, rfl⟩ : ∃ k, deeper = k + 1 := ⟨deeper - 1, by omega⟩
    rw [follow_succ] at h ⊢
    obtain ⟨result, hresult, h⟩ := exists_of_bind_eq_ok h
    rw [hresult]
    exact foldlM_ok_congr (fun task _ state state' => ih (by omega)) h

/-- What performing a task keeps holds at the end of every run. -/
theorem follow_keeps {σ τ : Type} {perform : τ → σ → Except Error (σ × List τ)} {unbounded : Error}
    {P : σ → Prop} {depth : Nat} {task : τ} {state state' : σ}
    (hperform : ∀ {task state result}, P state → perform task state = .ok result → P result.1)
    (hstate : P state) (h : follow perform unbounded depth task state = .ok state') :
    P state' := by
  induction depth generalizing task state state' with
  | zero => cases h
  | succ depth ih =>
    rw [follow_succ] at h
    obtain ⟨result, hresult, h⟩ := exists_of_bind_eq_ok h
    exact foldlM_keeps (fun _ _ _ _ hs hrun => ih hs hrun) (hperform hstate hresult) h

/-! ## Computations with the same outcome -/

/-- Two computations fail with the same error, or have related results. -/
inductive SameOutcome {α β : Type} (P : α → β → Prop) : Except Error α → Except Error β → Prop where
  | error (e : Error) : SameOutcome P (.error e) (.error e)
  | ok {a : α} {b : β} : P a b → SameOutcome P (.ok a) (.ok b)

namespace SameOutcome

variable {α β γ δ : Type} {P : α → β → Prop} {Q : γ → δ → Prop} {x : Except Error α}
  {y : Except Error β}

/-- Computations that go on in the same way have the same outcome. -/
theorem bind (h : SameOutcome P x y) {f : α → Except Error γ} {g : β → Except Error δ}
    (hrest : ∀ a b, P a b → SameOutcome Q (f a) (g b)) : SameOutcome Q (x >>= f) (y >>= g) := by
  cases h with
  | error e => exact .error e
  | ok hab => exact hrest _ _ hab

theorem map (h : SameOutcome P x y) {f : α → γ} {g : β → δ}
    (hrest : ∀ a b, P a b → Q (f a) (g b)) : SameOutcome Q (x.map f) (y.map g) := by
  cases h with
  | error e => exact .error e
  | ok hab => exact .ok (hrest _ _ hab)

/-- The results may be related by less. -/
theorem imp {P' : α → β → Prop} (h : SameOutcome P x y) (himp : ∀ a b, P a b → P' a b) :
    SameOutcome P' x y := by
  cases h with
  | error e => exact .error e
  | ok hab => exact .ok (himp _ _ hab)

/-- Loops over related lists have the same outcome if their rounds do. The relation between the
members may depend on how far one of the states has come. -/
theorem foldlM {R : α → γ → δ → Prop} {E : α → α → Prop} {f : α → γ → Except Error α}
    {g : β → δ → Except Error β} {xs : List γ} {ys : List δ} {a : α} {b : β}
    (hrefl : ∀ a, E a a) (htrans : ∀ {a a' a''}, E a a' → E a' a'' → E a a'')
    (hmono : ∀ {a a' b b' x y}, P a b → P a' b' → E a a' → R a x y → R a' x y)
    (hround : ∀ {a b x y}, P a b → R a x y →
      SameOutcome (fun a' b' => P a' b' ∧ E a a') (f a x) (g b y))
    (hab : P a b) (h : List.Forall₂ (R a) xs ys) :
    SameOutcome (fun a' b' => P a' b' ∧ E a a') (xs.foldlM f a) (ys.foldlM g b) := by
  induction xs generalizing ys a b with
  | nil =>
    cases h
    exact .ok ⟨hab, hrefl a⟩
  | cons x xs ih =>
    cases h with
    | cons hxy hrest =>
      rw [List.foldlM_cons, List.foldlM_cons]
      refine (hround hab hxy).bind fun a' b' hmid => ?_
      refine (ih hmid.1 (hrest.imp fun x y => hmono hab hmid.1 hmid.2)).imp
        fun a'' b'' hend => ?_
      exact ⟨hend.1, htrans hmid.2 hend.2⟩

end SameOutcome

/-- Following related tasks has the same outcome if performing them does, and leads to related
tasks. -/
theorem follow_same {σ σ' τ τ' : Type} {perform : τ → σ → Except Error (σ × List τ)}
    {perform' : τ' → σ' → Except Error (σ' × List τ')} {P : σ → σ' → Prop}
    {R : σ → τ → τ' → Prop} {E : σ → σ → Prop} (unbounded : Error)
    (hrefl : ∀ s, E s s) (htrans : ∀ {s s' s''}, E s s' → E s' s'' → E s s'')
    (hmono : ∀ {s s' t t' x y}, P s t → P s' t' → E s s' → R s x y → R s' x y)
    (hperform : ∀ {s t x y}, P s t → R s x y →
      SameOutcome (fun r r' => P r.1 r'.1 ∧ E s r.1 ∧ List.Forall₂ (R r.1) r.2 r'.2)
        (perform x s) (perform' y t))
    (depth : Nat) {s : σ} {t : σ'} {x : τ} {y : τ'} (hst : P s t) (hxy : R s x y) :
    SameOutcome (fun s' t' => P s' t' ∧ E s s') (follow perform unbounded depth x s)
      (follow perform' unbounded depth y t) := by
  induction depth generalizing s t x y with
  | zero =>
    rw [follow, follow]
    exact .error _
  | succ depth ih =>
    rw [follow_succ, follow_succ]
    refine (hperform hst hxy).bind fun r r' hr => ?_
    refine (SameOutcome.foldlM (R := R) (E := E) hrefl htrans hmono ih hr.1 hr.2.2).imp
      fun s' t' hend => ?_
    exact ⟨hend.1, htrans hr.2.1 hend.2⟩

end CallNgrams
