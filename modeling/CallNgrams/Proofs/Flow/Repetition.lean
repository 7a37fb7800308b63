import Mathlib.Data.List.Destutter
import CallNgrams.Proofs.Flow.Redirect

/-!
# Dropping repeated calls

A call is dropped by moving every reference past it. So the call sequences that are left are those
from before without the calls that nothing refers to any more. They stay the same, up to adjacent
equal calls, on exactly the paths that make each dropped call right after a call of the same target.
-/

namespace CallNgrams

namespace CellArray

variable {array : CellArray} {i c p : Nat} {site : Option CallSite}

/-- Something leads to a cell: the entrance, a fallthrough or a destination of a command. -/
def Refers (array : CellArray) (c : Nat) : Prop :=
  array.entrance = c ∨ ∃ cell ∈ array.cells,
    cell.next = some c ∨ ∃ command ∈ cell.command, c ∈ command.destinations

instance (array : CellArray) (c : Nat) : Decidable (array.Refers c) :=
  inferInstanceAs (Decidable (_ ∨ ∃ cell ∈ array.cells,
    cell.next = some c ∨ ∃ command ∈ cell.command, c ∈ command.destinations))

/-- What leads to a cell is the entrance, a fallthrough or a destination. -/
theorem refers_iff : array.Refers c ↔ array.entrance = c ∨ (∃ i, array.next? i = some c) ∨
    ∃ i command, array.command? i = some command ∧ c ∈ command.destinations := by
  refine or_congr_right ?_
  constructor
  · rintro ⟨cell, hcell, hc⟩
    obtain ⟨i, hi⟩ := Array.mem_iff_getElem?.mp hcell
    rcases hc with hn | ⟨command, hc, hd⟩
    · exact .inl ⟨i, by rw [next?, hi]; exact hn⟩
    · exact .inr ⟨i, command, by rw [command?, hi]; exact hc, hd⟩
  · rintro (⟨i, hn⟩ | ⟨i, command, hc, hd⟩)
    · obtain ⟨cell, hi, hn⟩ := Option.bind_eq_some_iff.mp hn
      exact ⟨cell, Array.mem_of_getElem? hi, .inl hn⟩
    · obtain ⟨cell, hi, hc⟩ := Option.bind_eq_some_iff.mp hc
      exact ⟨cell, Array.mem_of_getElem? hi, .inr ⟨command, hc, hd⟩⟩

theorem refers_of_next? (h : array.next? i = some c) : array.Refers c :=
  refers_iff.mpr (.inr (.inl ⟨i, h⟩))

/-- Control only gets to cells that something leads to. -/
theorem refers_of_step (hs : array.Step p site c) : array.Refers c := by
  obtain ⟨command, hc, hm⟩ := hs
  cases hm with
  | jump => exact refers_iff.mpr (.inr (.inr ⟨p, _, hc, List.mem_singleton.mpr rfl⟩))
  | choose ht => exact refers_iff.mpr (.inr (.inr ⟨p, _, hc, ht⟩))
  | decline hn => exact refers_of_next? hn
  | call hn => exact refers_of_next? hn

/-- Something leads to every cell that a path makes a call at. -/
theorem refers_of_path {calls : List CallSite} {r : Nat} (h : Path array.Step p calls r)
    (hp : array.Refers p) : ∀ site ∈ calls, array.Refers site.offset := by
  induction h with
  | stop => exact fun _ hmem => absurd hmem List.not_mem_nil
  | silent hs _ ih => exact ih (refers_of_step hs)
  | call hs _ ih =>
    intro site hmem
    rcases List.mem_cons.mp hmem with rfl | hmem
    · rwa [array.sited_step _ _ _ hs]
    · exact ih (refers_of_step hs) site hmem

/-- Moving references past a cell takes all references from it, and from no other cell. -/
theorem refers_redirect {old new : Nat} (hnext : array.next? old = some new) :
    (array.redirect old new).Refers c ↔ array.Refers c ∧ (c = old → new = old) := by
  have hmoved : ∀ d, array.Refers d →
      array.Refers (moved old new d) ∧ (moved old new d = old → new = old) := by
    intro d hd
    by_cases he : d = old
    · rw [he, moved_old]
      exact ⟨refers_of_next? hnext, id⟩
    · rw [moved_of_ne he]
      exact ⟨hd, fun h => absurd h he⟩
  constructor
  · intro h
    rcases refers_iff.mp h with rfl | ⟨i, hn⟩ | ⟨i, redirected, hr, hd⟩
    · exact hmoved _ (refers_iff.mpr (.inl rfl))
    · by_cases hi : i = old
      · subst i
        rw [next?_redirect_old, hnext] at hn
        obtain rfl := Option.some.inj hn
        exact ⟨refers_of_next? hnext, id⟩
      · rw [next?_redirect_of_ne hi] at hn
        obtain ⟨d, hd, rfl⟩ := Option.map_eq_some_iff.mp hn
        exact hmoved d (refers_of_next? hd)
    · obtain ⟨command, hc, rfl⟩ := exists_command?_of_redirect hr
      obtain ⟨d, hold, rfl⟩ := Command.mem_destinations_redirect.mp hd
      exact hmoved d (refers_iff.mpr (.inr (.inr ⟨i, command, hc, hold⟩)))
  · rintro ⟨h, hc⟩
    have hstay : moved old new c = c := by
      by_cases he : c = old
      · rw [he, moved_old, hc he]
      · exact moved_of_ne he
    rcases refers_iff.mp h with he | ⟨i, hn⟩ | ⟨i, command, hcmd, hd⟩
    · exact refers_iff.mpr (.inl (by rw [entrance_redirect, he, hstay]))
    · refine refers_iff.mpr (.inr (.inl ⟨i, ?_⟩))
      by_cases hi : i = old
      · rw [hi, next?_redirect_old, ← hi, hn]
      · rw [next?_redirect_of_ne hi, hn, Option.map_some, hstay]
    · refine refers_iff.mpr (.inr (.inr ⟨i, command.redirect old new, ?_, ?_⟩))
      · rw [command?_redirect, hcmd, Option.map_some]
      · exact Command.mem_destinations_redirect.mpr ⟨c, hd, hstay.symm⟩

/-! ## Dropping calls -/

/-- The calls that are not made at the removed cells. -/
def without (removed : List Nat) (calls : List CallSite) : List CallSite :=
  calls.filter fun site => site.offset ∉ removed

@[simp] theorem without_nil (calls : List CallSite) : without [] calls = calls := by
  simp [without]

theorem without_without (first second : List Nat) (calls : List CallSite) :
    without second (without first calls) = without (first ++ second) calls := by
  simp [without, List.filter_filter, Bool.and_comm]

theorem without_cons_of_mem {removed : List Nat} {site : CallSite} {calls : List CallSite}
    (h : site.offset ∈ removed) : without removed (site :: calls) = without removed calls :=
  List.filter_cons_of_neg (by simpa using h)

theorem without_cons_of_not_mem {removed : List Nat} {site : CallSite} {calls : List CallSite}
    (h : site.offset ∉ removed) :
    without removed (site :: calls) = site :: without removed calls :=
  List.filter_cons_of_pos (by simpa using h)

/-- The paths of `after` make the calls of `before` without those at the removed cells, and nothing
leads to these any more. -/
structure Drops (removed : List Nat) (before after : CellArray) : Prop where
  makes : ∀ calls, after.Makes calls ↔ ∃ all, before.Makes all ∧ calls = without removed all
  refers : ∀ c, after.Refers c ↔ before.Refers c ∧ c ∉ removed

theorem Drops.refl (array : CellArray) : Drops [] array array where
  makes calls := by simp
  refers c := by simp

/-- Two arrays that drop calls one after the other drop the calls of both. -/
theorem Drops.trans {first second : List Nat} {a b c : CellArray} (h : Drops first a b)
    (h' : Drops second b c) : Drops (first ++ second) a c where
  makes calls := by
    rw [h'.makes]
    constructor
    · rintro ⟨mid, hmid, rfl⟩
      obtain ⟨all, hall, rfl⟩ := (h.makes mid).mp hmid
      exact ⟨all, hall, without_without first second all⟩
    · rintro ⟨all, hall, rfl⟩
      refine ⟨without first all, (h.makes _).mpr ⟨all, hall, rfl⟩, ?_⟩
      exact (without_without first second all).symm
  refers d := by rw [h'.refers, h.refers, List.mem_append, not_or, and_assoc]

/-- A step of another cell makes no call at a removed cell. -/
theorem offset_not_mem {old dest : Nat} {site : CallSite} (hs : array.Step p (some site) dest)
    (hp : p ≠ old) : site.offset ∉ [old] := by
  rw [array.sited_step _ _ _ hs, List.mem_singleton]
  exact hp

section Skip

variable {old new : Nat} {target : CallTarget} {calls : List CallSite} {r : Nat}
  (hcall : array.command? old = some (.call target)) (hnext : array.next? old = some new)

include hcall

/-- The cell that references move past keeps its own step. -/
theorem step_redirect_call {dest : Nat} :
    (array.redirect old new).Step old site dest ↔ array.Step old site dest := by
  rw [Step, Step, next?_redirect_old, command?_redirect, hcall]
  rfl

include hnext

theorem step_call {dest : Nat} :
    array.Step old site dest ↔ site = some ⟨old, target⟩ ∧ dest = new := by
  constructor
  · rintro ⟨command, hc, hm⟩
    obtain rfl := Option.some.inj (hcall.symm.trans hc)
    cases hm with
    | call hn => exact ⟨rfl, Option.some.inj (hn.symm.trans hnext)⟩
  · rintro ⟨rfl, rfl⟩
    exact ⟨_, hcall, .call hnext⟩

/-- A path goes on past the call, which it no longer makes. -/
theorem path_redirect (hne : new ≠ old) (h : Path array.Step p calls r) :
    Path (array.redirect old new).Step (moved old new p) (without [old] calls)
      (moved old new r) := by
  induction h with
  | stop p => exact .stop _
  | @silent p q _ calls hs _ ih =>
    have hp : p ≠ old := by
      rintro rfl
      cases ((step_call hcall hnext).mp hs).1
    rw [moved_of_ne hp]
    exact .silent ((step_redirect_of_ne hp).mpr ⟨q, hs, rfl⟩) ih
  | @call p q _ site calls hs _ ih =>
    by_cases hp : p = old
    · subst p
      obtain ⟨hsite, rfl⟩ := (step_call hcall hnext).mp hs
      obtain rfl := Option.some.inj hsite
      have hdropped : (CallSite.mk old target).offset ∈ [old] := List.mem_singleton.mpr rfl
      rw [moved_old, without_cons_of_mem hdropped]
      rwa [moved_of_ne hne] at ih
    · rw [moved_of_ne hp, without_cons_of_not_mem (offset_not_mem hs hp)]
      exact .call ((step_redirect_of_ne hp).mpr ⟨q, hs, rfl⟩) ih

/-- From where a reference was moved to, the call can be made in between. -/
theorem emits_of_moved {all : List CallSite} (h : Emits array.Step (moved old new p) all) :
    ∃ all', Emits array.Step p all' ∧ without [old] all' = without [old] all := by
  by_cases hp : p = old
  · rw [hp, moved_old] at h
    obtain ⟨r, hr⟩ := h
    refine ⟨⟨old, target⟩ :: all, ⟨r, ?_⟩, without_cons_of_mem (List.mem_singleton.mpr rfl)⟩
    rw [hp]
    exact .call ((step_call hcall hnext).mpr ⟨rfl, rfl⟩) hr
  · rw [moved_of_ne hp] at h
    exact ⟨all, h, rfl⟩

/-- A path that skips a call is one of the old array without that call. -/
theorem emits_of_redirect (hne : new ≠ old) (h : Path (array.redirect old new).Step p calls r)
    (hp : p ≠ old) : ∃ all, Emits array.Step p all ∧ calls = without [old] all := by
  induction h with
  | stop p => exact ⟨[], ⟨p, .stop p⟩, rfl⟩
  | silent hs _ ih =>
    obtain ⟨d, hd, rfl⟩ := (step_redirect_of_ne hp).mp hs
    obtain ⟨all, hall, rfl⟩ := ih (moved_ne_old hne)
    obtain ⟨all', ⟨r, hr⟩, hsame⟩ := emits_of_moved hcall hnext hall
    exact ⟨all', ⟨r, .silent hd hr⟩, hsame.symm⟩
  | @call p _ _ site _ hs _ ih =>
    obtain ⟨d, hd, rfl⟩ := (step_redirect_of_ne hp).mp hs
    obtain ⟨all, hall, rfl⟩ := ih (moved_ne_old hne)
    obtain ⟨all', ⟨r, hr⟩, hsame⟩ := emits_of_moved hcall hnext hall
    refine ⟨site :: all', ⟨r, .call hd hr⟩, ?_⟩
    rw [without_cons_of_not_mem (offset_not_mem hd hp), hsame]

/-- Skipping a call that leads elsewhere drops it; skipping one that leads to itself changes
nothing. -/
theorem drops_redirect :
    Drops (if new = old then [] else [old]) array (array.redirect old new) := by
  split
  case isTrue hself =>
    subst new
    have hstep : (array.redirect old old).Step = array.Step := by
      funext i site dest
      refine propext ?_
      by_cases hi : i = old
      · rw [hi]
        exact step_redirect_call hcall
      · simp [step_redirect_of_ne hi]
    refine ⟨fun calls => ?_, fun c => by simp [refers_redirect hnext]⟩
    simp [Makes, hstep, entrance_redirect]
  case isFalse hne =>
    refine ⟨fun calls => ⟨?_, ?_⟩, fun c => by simp [refers_redirect hnext, hne]⟩
    · rintro ⟨r, hp⟩
      obtain ⟨all, hall, rfl⟩ := emits_of_redirect hcall hnext hne hp (moved_ne_old hne)
      obtain ⟨all', hall', hsame⟩ := emits_of_moved hcall hnext hall
      exact ⟨all', hall', hsame.symm⟩
    · rintro ⟨all, ⟨r, hp⟩, rfl⟩
      exact ⟨_, path_redirect hcall hnext hne hp⟩

end Skip

/-- Moving references past a call drops it or changes nothing, and keeps destinations resolved. -/
theorem exists_drops_skip {target : CallTarget} (hcall : array.command? i = some (.call target)) :
    ∃ removed, Drops removed array (array.skip i (array.next? i)) ∧
      (array.Resolved → (array.skip i (array.next? i)).Resolved) := by
  cases hnext : array.next? i with
  | none => exact ⟨[], .refl array, id⟩
  | some new => exact ⟨_, drops_redirect hcall hnext, fun h => h.redirect (h.next hnext)⟩

/-- Skipping the repeats behind a call drops the calls of the skipped cells. -/
theorem exists_drops_skipRepeats (target : CallTarget) (fuel : Nat) (done : List Nat)
    (next : Option Nat) (array : CellArray) :
    ∃ removed, Drops removed array (skipRepeats target fuel done next array) ∧
      (array.Resolved → (skipRepeats target fuel done next array).Resolved) := by
  induction fuel generalizing done next array with
  | zero => exact ⟨[], .refl array, id⟩
  | succ fuel ih =>
    cases next with
    | none => exact ⟨[], .refl array, id⟩
    | some current =>
      rw [skipRepeats]
      split
      · exact ⟨[], .refl array, id⟩
      · split
        case h_1 other hcall =>
          dsimp only
          generalize hskipped :
            (if other = target then array.skip current (array.next? current) else array) = skipped
          have hskip : ∃ removed, Drops removed array skipped ∧
              (array.Resolved → skipped.Resolved) := by
            subst hskipped
            split
            · exact exists_drops_skip hcall
            · exact ⟨[], .refl array, id⟩
          obtain ⟨first, hfirst, hres⟩ := hskip
          obtain ⟨second, hsecond, hrest⟩ := ih (current :: done) (array.next? current) skipped
          exact ⟨first ++ second, hfirst.trans hsecond, fun h => hrest (hres h)⟩
        case h_2 => exact ⟨[], .refl array, id⟩

/-- Removing repetitions drops the calls of some cells and keeps destinations resolved. -/
theorem exists_drops_removeRepetitions (array : CellArray) :
    ∃ removed, Drops removed array array.removeRepetitions ∧
      (array.Resolved → array.removeRepetitions.Resolved) := by
  refine List.foldlRecOn (motive := fun b : CellArray => ∃ removed, Drops removed array b ∧
    (array.Resolved → b.Resolved)) _ _ ⟨[], .refl array, id⟩ ?_
  rintro b ⟨first, hfirst, hres⟩ index -
  rw [removeRepetitionAt]
  split
  case h_1 target _ =>
    obtain ⟨second, hsecond, hrest⟩ :=
      exists_drops_skipRepeats target (b.size + 1) [index] (b.next? index) b
    exact ⟨first ++ second, hfirst.trans hsecond, fun h => hrest (hres h)⟩
  case h_2 => exact ⟨first, hfirst, hres⟩

/-- After repetitions are removed, exactly the calls are gone that nothing leads to any more. -/
theorem makes_removeRepetitions (array : CellArray) (calls : List CallSite) :
    array.removeRepetitions.Makes calls ↔ ∃ all, array.Makes all ∧
      calls = all.filter fun site => array.removeRepetitions.Refers site.offset := by
  obtain ⟨removed, hdrops, -⟩ := exists_drops_removeRepetitions array
  rw [hdrops.makes]
  refine exists_congr fun all => and_congr_right ?_
  rintro ⟨r, hp⟩
  have hrefers := refers_of_path hp (refers_iff.mpr (.inl rfl))
  have hkept : without removed all =
      all.filter fun site => array.removeRepetitions.Refers site.offset := by
    refine List.filter_congr fun site hmem => ?_
    rw [decide_eq_decide, hdrops.refers]
    exact (and_iff_right (hrefers site hmem)).symm
  rw [hkept]

end CellArray

/-! ## Adjacent equal calls -/

/-- Comparing with the last element decides whether one more element is kept. -/
theorem destutter_concat {α : Type} [DecidableEq α] (l : List α) (x : α) :
    (l ++ [x]).destutter (· ≠ ·) =
      if l.getLast? = some x then l.destutter (· ≠ ·) else l.destutter (· ≠ ·) ++ [x] := by
  cases l with
  | nil => rfl
  | cons a l =>
    rw [List.cons_append, List.destutter_cons', List.destutter_cons']
    induction l generalizing a with
    | nil => by_cases h : a = x <;> simp [h]
    | cons b l ih =>
      by_cases h : a = b
      · subst b
        rw [List.cons_append, List.destutter'_cons_neg _ (not_not.mpr rfl),
          List.destutter'_cons_neg _ (not_not.mpr rfl), ih a, List.getLast?_cons_cons]
      · rw [List.cons_append, List.destutter'_cons_pos _ h, List.destutter'_cons_pos _ h, ih b,
          List.getLast?_cons_cons]
        split
        · rfl
        · rfl

/-- Squeezing a list keeps its last member. -/
theorem getLast?_destutter {α : Type} [DecidableEq α] (l : List α) :
    (l.destutter (· ≠ ·)).getLast? = l.getLast? := by
  induction l using List.reverseRecOn with
  | nil => rfl
  | append_singleton l x ih =>
    rw [destutter_concat]
    split
    case isTrue h => rw [ih, h, List.getLast?_concat]
    case isFalse => rw [List.getLast?_concat, List.getLast?_concat]

/-- The targets of calls, with every run of adjacent equal ones squeezed to one. -/
def squeezed (calls : List CallSite) : List CallTarget :=
  (calls.map CallSite.target).destutter (· ≠ ·)

/-- A further call is squeezed away if the last one has its target. -/
theorem squeezed_concat (calls : List CallSite) (site : CallSite) :
    squeezed (calls ++ [site]) =
      if calls.getLast?.map CallSite.target = some site.target then squeezed calls
      else squeezed calls ++ [site.target] := by
  rw [squeezed, List.map_append, List.map_singleton, destutter_concat, List.getLast?_map]
  rfl

/-- The last target is that of the last call. -/
theorem getLast?_squeezed (calls : List CallSite) :
    (squeezed calls).getLast? = calls.getLast?.map CallSite.target := by
  rw [squeezed, getLast?_destutter, List.getLast?_map]

/-- Leaving out calls does not change any squeezed sequence exactly if each call that is left out
comes right after one of the same target. -/
theorem squeezed_filter_iff {makes : List CallSite → Prop} (kept : CallSite → Bool)
    (hmakes : ∀ calls site, makes (calls ++ [site]) → makes calls) :
    (∀ calls site, makes (calls ++ [site]) → kept site = false →
        calls.getLast?.map CallSite.target = some site.target) ↔
      ∀ calls, makes calls → squeezed (calls.filter kept) = squeezed calls := by
  constructor
  · intro h calls
    induction calls using List.reverseRecOn with
    | nil => exact fun _ => rfl
    | append_singleton calls site ih =>
      intro hm
      have hbefore := ih (hmakes calls site hm)
      rw [List.filter_append, squeezed_concat]
      cases hk : kept site with
      | true =>
        have hlast : (calls.filter kept).getLast?.map CallSite.target =
            calls.getLast?.map CallSite.target := by
          rw [← getLast?_squeezed, ← getLast?_squeezed, hbefore]
        rw [List.filter_singleton, hk, cond_true, squeezed_concat, hlast, hbefore]
      | false =>
        rw [List.filter_singleton, hk, cond_false, List.append_nil, if_pos (h calls site hm hk),
          hbefore]
  · intro h calls site hm hk
    have hwith := h _ hm
    rw [List.filter_append, List.filter_singleton, hk, cond_false, List.append_nil,
      h calls (hmakes calls site hm), squeezed_concat] at hwith
    split at hwith
    case isTrue hlast => exact hlast
    case isFalse =>
      have hlength := congrArg List.length hwith
      simp at hlength

namespace CellArray

/-- Every call that removing repetitions drops is only made right after a call of its target. -/
def DropsOnlyRepeats (array : CellArray) : Prop :=
  ∀ calls site, array.Makes (calls ++ [site]) → ¬array.removeRepetitions.Refers site.offset →
    calls.getLast?.map CallSite.target = some site.target

/-- Removing repetitions drops only repeats if it never changes the squeezed calls. -/
theorem dropsOnlyRepeats_iff (array : CellArray) :
    array.DropsOnlyRepeats ↔ ∀ calls, array.Makes calls →
      squeezed (calls.filter fun site => array.removeRepetitions.Refers site.offset) =
        squeezed calls := by
  have hprefix : ∀ calls site, array.Makes (calls ++ [site]) → array.Makes calls := by
    rintro calls site ⟨r, hp⟩
    obtain ⟨q, hq, -⟩ := hp.split
    exact ⟨q, hq⟩
  rw [← squeezed_filter_iff _ hprefix]
  simp only [DropsOnlyRepeats, decide_eq_false_iff_not]

/-- Only repeats are dropped if control gets to each dropped call from calls of its target alone. -/
theorem dropsOnlyRepeats_of_entered {array : CellArray}
    (h : ∀ c target, array.command? c = some (.call target) →
      ¬array.removeRepetitions.Refers c → array.entrance ≠ c ∧
        ∀ p site, array.Step p site c → ∃ call, site = some call ∧ call.target = target) :
    array.DropsOnlyRepeats := by
  rintro calls ⟨offset, target⟩ ⟨r, hp⟩ hdropped
  obtain ⟨q, hcalls, hsite⟩ := hp.split
  obtain ⟨hto, d, ⟨command, hc, hm⟩, -⟩ := (sited_step array).path_to_site hsite
  have htarget : array.command? offset = some (.call target) := by
    cases hm
    exact hc
  obtain ⟨hentrance, henter⟩ := h offset target htarget hdropped
  have hpath := hcalls.trans hto
  rw [List.append_nil] at hpath
  rcases hpath.last with ⟨he, -⟩ | ⟨p, before, last, -, hlast, rfl⟩
  · exact absurd he hentrance
  · obtain ⟨call, rfl, htargets⟩ := henter p last hlast
    rw [Option.toList_some, List.getLast?_concat, Option.map_some, htargets]

/-- Removing repetitions leaves exactly the call sequences without the calls that nothing leads to
any more. Each of them stays the same, up to adjacent equal targets, exactly if the dropped calls
are only made right after a call of their target. Then the same squeezed sequences can be made. -/
theorem removeRepetitions_squeezed (array : CellArray) :
    (∀ calls, array.removeRepetitions.Makes calls ↔ ∃ all, array.Makes all ∧
        calls = all.filter fun site => array.removeRepetitions.Refers site.offset) ∧
      (array.DropsOnlyRepeats ↔ ∀ calls, array.Makes calls →
        squeezed (calls.filter fun site => array.removeRepetitions.Refers site.offset) =
          squeezed calls) ∧
      (array.DropsOnlyRepeats → ∀ targets,
        (∃ calls, array.removeRepetitions.Makes calls ∧ squeezed calls = targets) ↔
          ∃ calls, array.Makes calls ∧ squeezed calls = targets) := by
  refine ⟨makes_removeRepetitions array, dropsOnlyRepeats_iff array, fun h targets => ?_⟩
  rw [dropsOnlyRepeats_iff] at h
  constructor
  · rintro ⟨calls, hm, rfl⟩
    obtain ⟨all, hall, rfl⟩ := (makes_removeRepetitions array calls).mp hm
    exact ⟨all, hall, (h all hall).symm⟩
  · rintro ⟨all, hall, rfl⟩
    exact ⟨_, (makes_removeRepetitions array _).mpr ⟨all, hall, rfl⟩, h all hall⟩

/-- The cells of a method that repeats a call at once. -/
def repeatCells : CellArray where
  method := ⟨"t/A", "m:()V"⟩
  cells := #[⟨some 1, some (.call ⟨some "t/A", "a:()V"⟩)⟩,
    ⟨some 2, some (.call ⟨some "t/A", "a:()V"⟩)⟩, ⟨some 3, some (.call ⟨some "t/A", "b:()V"⟩)⟩,
    ⟨none, some .ret⟩]
  entrance := 0

/-- The call that `repeatCells` repeats is dropped, and the squeezed sequences stay. -/
theorem removeRepetitions_squeezed_repeat :
    ¬repeatCells.removeRepetitions.Refers 1 ∧ repeatCells.DropsOnlyRepeats ∧
      ∀ targets, (∃ calls, repeatCells.removeRepetitions.Makes calls ∧ squeezed calls = targets) ↔
        ∃ calls, repeatCells.Makes calls ∧ squeezed calls = targets := by
  have honly : repeatCells.DropsOnlyRepeats := by
    refine dropsOnlyRepeats_of_entered fun c target hc hdropped => ?_
    have hlt : c < 4 := lt_size_of_command? hc
    have hkept : ∀ c < 4, c = 1 ∨ repeatCells.removeRepetitions.Refers c := by decide
    obtain rfl := (hkept c hlt).resolve_right hdropped
    cases hc
    refine ⟨by decide, ?_⟩
    rintro p site ⟨command, hp, hm⟩
    have hlt : p < 4 := lt_size_of_command? hp
    match p, hlt with
    | 0, _ =>
      cases hp
      cases hm
      exact ⟨_, rfl, rfl⟩
    | 1, _ | 2, _ =>
      cases hp
      rcases hm with _ | _ | _ | hn
      cases hn
    | 3, _ =>
      cases hp
      cases hm
  exact ⟨by decide, honly, (removeRepetitions_squeezed repeatCells).2.2 honly⟩

/-- A call that is repeated after a different call. -/
def alternatingBody : Body :=
  ⟨#[some ⟨"invokestatic", [], some "// Method t/A.a:()V"⟩,
    some ⟨"invokestatic", [], some "// Method t/A.b:()V"⟩,
    some ⟨"invokestatic", [], some "// Method t/A.a:()V"⟩, some ⟨"return", [], none⟩]⟩

/-- The cells of `alternatingBody`, which has neither jumps nor branches. -/
def alternatingCells : CellArray where
  method := ⟨"t/A", "m:()V"⟩
  cells := #[⟨some 1, some (.call ⟨some "t/A", "a:()V"⟩)⟩,
    ⟨some 2, some (.call ⟨some "t/A", "b:()V"⟩)⟩, ⟨some 3, some (.call ⟨some "t/A", "a:()V"⟩)⟩,
    ⟨some 4, some .ret⟩, ⟨none, some .ret⟩]
  entrance := 0

/-- Removing repetitions from `alternatingBody` drops its last call, although another call is made
in between. -/
theorem alternatingBody_loses_call :
    ofBody none ⟨"t/A", "m:()V"⟩ alternatingBody = .ok alternatingCells ∧
      alternatingCells.collapseJumps = .ok alternatingCells ∧
      alternatingCells.mergeBranches = alternatingCells ∧
      (∃ calls, alternatingCells.Makes calls ∧ squeezed calls =
        [⟨some "t/A", "a:()V"⟩, ⟨some "t/A", "b:()V"⟩, ⟨some "t/A", "a:()V"⟩]) ∧
      ¬∃ calls, alternatingCells.removeRepetitions.Makes calls ∧ squeezed calls =
        [⟨some "t/A", "a:()V"⟩, ⟨some "t/A", "b:()V"⟩, ⟨some "t/A", "a:()V"⟩] := by
  refine ⟨by rfl, by rfl, by rfl, ⟨[⟨0, ⟨some "t/A", "a:()V"⟩⟩, ⟨1, ⟨some "t/A", "b:()V"⟩⟩,
    ⟨2, ⟨some "t/A", "a:()V"⟩⟩], ⟨3, ?_⟩, by rfl⟩, ?_⟩
  · refine .call (q := 1) ⟨_, rfl, .call rfl⟩ (.call (q := 2) ⟨_, rfl, .call rfl⟩ ?_)
    exact .call ⟨_, rfl, .call rfl⟩ (.stop 3)
  · rintro ⟨calls, ⟨r, hp⟩, hsqueezed⟩
    -- After the first two calls control stops.
    have hfirst {site : Option CallSite} {q : Nat}
        (hs : alternatingCells.removeRepetitions.Step 0 site q) :
        site = some ⟨0, ⟨some "t/A", "a:()V"⟩⟩ ∧ q = 1 := (step_call rfl rfl).mp hs
    have hsecond {site : Option CallSite} {q : Nat}
        (hs : alternatingCells.removeRepetitions.Step 1 site q) :
        site = some ⟨1, ⟨some "t/A", "b:()V"⟩⟩ ∧ q = 3 := (step_call rfl rfl).mp hs
    have hend : Halted alternatingCells.removeRepetitions.Step 3 := by
      rintro site q ⟨command, hc, hm⟩
      cases hc
      cases hm
    cases hp with
    | stop => cases hsqueezed
    | silent hs _ => cases (hfirst hs).1
    | call hs hp =>
      obtain ⟨⟨⟩, rfl⟩ := hfirst hs
      cases hp with
      | stop => cases hsqueezed
      | silent hs _ => cases (hsecond hs).1
      | call hs hp =>
        obtain ⟨⟨⟩, rfl⟩ := hsecond hs
        cases hp with
        | stop => cases hsqueezed
        | silent hs _ => exact hend _ _ hs
        | call hs _ => exact hend _ _ hs

end CellArray

end CallNgrams
