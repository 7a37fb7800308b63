import Mathlib.Data.List.Induction
import CallNgrams.Method

/-!
# Paths and their calls

A transition relation says where control can go from a point and which call it makes on the way. A
finite path carries the calls that it makes. Replacing a destination by one that control slides on
to anyway is a shortcut, and shortcuts keep the call sequences of all points.
-/

namespace CallNgrams

/-- A call on a path: where it is made and what it calls. -/
structure CallSite where
  offset : Nat
  target : CallTarget
deriving DecidableEq, Repr

/-- Where control can go from a point, and the call that it makes on the way, if any. -/
abbrev Transition := Nat → Option CallSite → Nat → Prop

/-- A finite path between two points, with the calls that are made along it. -/
inductive Path (step : Transition) : Nat → List CallSite → Nat → Prop where
  | stop (p : Nat) : Path step p [] p
  | silent {p q r : Nat} {calls : List CallSite} :
      step p none q → Path step q calls r → Path step p calls r
  | call {p q r : Nat} {site : CallSite} {calls : List CallSite} :
      step p (some site) q → Path step q calls r → Path step p (site :: calls) r

/-- Control cannot go on from a point. -/
def Halted (step : Transition) (p : Nat) : Prop :=
  ∀ site q, ¬step p site q

/-- Some path from a point makes exactly these calls. -/
def Emits (step : Transition) (p : Nat) (calls : List CallSite) : Prop :=
  ∃ r, Path step p calls r

/-- Some path from a point makes exactly these calls and ends where control stops. -/
def Finishes (step : Transition) (p : Nat) (calls : List CallSite) : Prop :=
  ∃ r, Path step p calls r ∧ Halted step r

namespace Path

variable {step : Transition} {p q r : Nat} {calls more : List CallSite}

/-- A path of one silent step. -/
theorem single (h : step p none q) : Path step p [] q :=
  .silent h (.stop q)

/-- A path is one of every relation with more steps. -/
theorem mono {more : Transition} (hle : ∀ p site q, step p site q → more p site q)
    (h : Path step p calls r) : Path more p calls r := by
  induction h with
  | stop p => exact .stop p
  | silent hs _ ih => exact .silent (hle _ _ _ hs) ih
  | call hs _ ih => exact .call (hle _ _ _ hs) ih

/-- Paths compose, and so do their calls. -/
theorem trans (h : Path step p calls q) (h' : Path step q more r) :
    Path step p (calls ++ more) r := by
  induction h with
  | stop => exact h'
  | silent hs _ ih => exact .silent hs (ih h')
  | call hs _ ih => exact .call hs (ih h')

/-- A path is one of every relation that can go on from each of its steps to the same point without
a call. -/
theorem expand {fine : Transition}
    (hstep : ∀ p site q, step p site q → ∃ d, fine p site d ∧ Path fine d [] q)
    (h : Path step p calls r) : Path fine p calls r := by
  induction h with
  | stop p => exact .stop p
  | silent hs _ ih =>
    obtain ⟨d, hd, hpath⟩ := hstep _ _ _ hs
    exact .silent hd (hpath.trans ih)
  | call hs _ ih =>
    obtain ⟨d, hd, hpath⟩ := hstep _ _ _ hs
    exact .call hd (hpath.trans ih)

/-- A path that makes two sequences of calls passes a point between them. -/
theorem split (h : Path step p (calls ++ more) r) :
    ∃ q, Path step p calls q ∧ Path step q more r := by
  generalize hw : calls ++ more = all at h
  induction h generalizing calls with
  | stop p =>
    obtain ⟨rfl, rfl⟩ := List.append_eq_nil_iff.mp hw
    exact ⟨p, .stop p, .stop p⟩
  | silent hs _ ih =>
    obtain ⟨q, hq, hr⟩ := ih hw
    exact ⟨q, .silent hs hq, hr⟩
  | @call p _ _ site _ hs hp ih =>
    cases calls with
    | nil =>
      obtain rfl : more = _ := hw
      exact ⟨p, .stop p, .call hs hp⟩
    | cons first calls =>
      obtain ⟨rfl, hw'⟩ := List.cons.inj hw
      obtain ⟨q, hq, hr⟩ := ih hw'
      exact ⟨q, .call hs hq, hr⟩

/-- A path that goes anywhere ends with a step, and with its call if it makes one. -/
theorem last (h : Path step p calls r) : (p = r ∧ calls = []) ∨
    ∃ q before site, Path step p before q ∧ step q site r ∧ calls = before ++ site.toList := by
  induction h with
  | stop => exact .inl ⟨rfl, rfl⟩
  | @silent p q r calls hs _ ih =>
    rcases ih with ⟨rfl, rfl⟩ | ⟨d, before, site, hd, hlast, rfl⟩
    · exact .inr ⟨p, [], none, .stop p, hs, rfl⟩
    · exact .inr ⟨d, before, site, .silent hs hd, hlast, rfl⟩
  | @call p q r first calls hs _ ih =>
    rcases ih with ⟨rfl, rfl⟩ | ⟨d, before, site, hd, hlast, rfl⟩
    · exact .inr ⟨p, [], some first, .stop p, hs, rfl⟩
    · exact .inr ⟨d, first :: before, site, .call hs hd, hlast, rfl⟩

/-- A path is followed by a relation that can do each of its steps, or stay where a silent step
does not change the host, as long as an invariant holds. -/
theorem simulate {coarse : Transition} (host : Nat → Nat) (inv : Nat → Prop)
    (hstep : ∀ p site q, inv p → step p site q →
      inv q ∧ (coarse (host p) site (host q) ∨ site = none ∧ host p = host q))
    (hp : inv p) (h : Path step p calls r) : Path coarse (host p) calls (host r) := by
  induction h with
  | stop p => exact .stop (host p)
  | silent hs _ ih =>
    obtain ⟨hq, hgo | ⟨-, hstay⟩⟩ := hstep _ _ _ hp hs
    · exact .silent hgo (ih hq)
    · exact hstay ▸ ih hq
  | call hs _ ih =>
    obtain ⟨hq, hgo | ⟨hnone, -⟩⟩ := hstep _ _ _ hp hs
    · exact .call hgo (ih hq)
    · cases hnone

end Path

/-- Every call is made at the point that its call site names. -/
def Sited (step : Transition) : Prop :=
  ∀ p site q, step p (some site) q → site.offset = p

/-- A path gets to its first call site before it makes a call. -/
theorem Sited.path_to_site {step : Transition} (hsited : Sited step) {p r : Nat} {site : CallSite}
    {calls : List CallSite} (h : Path step p (site :: calls) r) :
    Path step p [] site.offset ∧ ∃ q, step site.offset (some site) q ∧ Path step q calls r := by
  generalize hw : site :: calls = all at h
  induction h with
  | stop => cases hw
  | silent hs _ ih =>
    obtain ⟨hto, hfrom⟩ := ih hw
    exact ⟨.silent hs hto, hfrom⟩
  | call hs hp _ =>
    obtain ⟨rfl, rfl⟩ := List.cons.inj hw
    obtain rfl := hsited _ _ _ hs
    exact ⟨.stop _, _, hs, hp⟩

/-- All call sequences of one point are call sequences of another as soon as this holds of the first
call and of each call that comes right after another one. -/
theorem Sited.emits_iff {s t : Transition} (hsited : Sited t) (p q : Nat) :
    (∀ calls, Emits s p calls → Emits t q calls) ↔
      (∀ site, Emits s p [site] → Emits t q [site]) ∧
        ∀ calls site site', Emits s p (calls ++ [site, site']) →
          Emits t site.offset [site, site'] := by
  constructor
  · intro h
    refine ⟨fun site => h [site], fun calls site site' hs => ?_⟩
    obtain ⟨r, hp⟩ := h _ hs
    obtain ⟨_, -, hq⟩ := hp.split
    obtain ⟨-, d, hd, hrest⟩ := hsited.path_to_site hq
    exact ⟨r, .call hd hrest⟩
  · rintro ⟨hfirst, hnext⟩ calls
    induction calls using List.reverseRecOn with
    | nil => exact fun _ => ⟨q, .stop q⟩
    | append_singleton calls last ih =>
      intro hs
      rcases List.eq_nil_or_concat calls with rfl | ⟨before, site, hcalls⟩
      · exact hfirst last hs
      · rw [List.concat_eq_append] at hcalls
        subst hcalls
        -- The calls before the last one can be made, and then the last one from their last site.
        obtain ⟨_, hp⟩ := hs
        obtain ⟨mid, hbefore, -⟩ := hp.split
        obtain ⟨_, hq⟩ := ih ⟨mid, hbefore⟩
        obtain ⟨_, hq, hsite⟩ := hq.split
        have hto := hq.trans (hsited.path_to_site hsite).1
        rw [List.append_assoc] at hp
        obtain ⟨r, hr⟩ := hnext before site last ⟨_, hp⟩
        refine ⟨r, ?_⟩
        rw [List.append_assoc]
        rw [List.append_nil] at hto
        exact hto.trans hr

/-- From a point on control can only go one way, without calls, until it gets to another. -/
inductive Slide (step : Transition) : Nat → Nat → Prop where
  | refl (p : Nat) : Slide step p p
  | step {p q r : Nat} : step p none q → (∀ site q', step p site q' → site = none ∧ q' = q) →
      Slide step q r → Slide step p r

/-- Control never makes a call from a point on, and never stops. -/
def Mute (step : Transition) (p : Nat) : Prop :=
  ∀ calls r, Path step p calls r → calls = [] ∧ ¬Halted step r

/-- Points that control never leaves, and from which it always goes on without a call, are mute. -/
theorem Mute.of_closed {step : Transition} (points : Nat → Prop)
    (hgo : ∀ p, points p → ∃ q, step p none q)
    (hstay : ∀ p site q, points p → step p site q → site = none ∧ points q)
    {p : Nat} (hp : points p) : Mute step p := by
  intro calls r h
  induction h with
  | stop p =>
    obtain ⟨q, hq⟩ := hgo p hp
    exact ⟨rfl, fun hh => hh none q hq⟩
  | silent hs _ ih => exact ih (hstay _ _ _ hp hs).2
  | call hs _ _ => exact absurd (hstay _ _ _ hp hs).1 (by simp)

namespace Slide

variable {step : Transition} {p q r : Nat} {calls : List CallSite}

theorem trans (h : Slide step p q) (h' : Slide step q r) : Slide step p r := by
  induction h with
  | refl => exact h'
  | step hs hu _ ih => exact .step hs hu (ih h')

/-- A slide is a path without calls. -/
theorem path (h : Slide step p q) : Path step p [] q := by
  induction h with
  | refl p => exact .stop p
  | step hs _ _ ih => exact .silent hs ih

/-- Each path from the start of a slide makes its calls from the end of the slide on. -/
theorem path_of_path (h : Slide step p q) (hp : Path step p calls r) :
    ∃ r', Path step q calls r' ∧ (Halted step r → Halted step r') := by
  induction h generalizing calls with
  | refl => exact ⟨r, hp, id⟩
  | @step p q _ hs hu hq ih =>
    cases hp with
    | stop => exact ⟨_, .stop _, fun hh => absurd hs (hh none q)⟩
    | silent hs' hp' =>
      obtain ⟨-, rfl⟩ := hu _ _ hs'
      exact ih hp'
    | call hs' _ => exact absurd (hu _ _ hs').1 (by simp)

end Slide

/-- Two points of two relations have the same call sequences, also of the paths that end where
control stops. -/
structure SameCalls (s : Transition) (p : Nat) (t : Transition) (q : Nat) : Prop where
  emits : ∀ calls, Emits s p calls ↔ Emits t q calls
  finishes : ∀ calls, Finishes s p calls ↔ Finishes t q calls

namespace SameCalls

variable {s t u : Transition} {p q r : Nat}

theorem refl (s : Transition) (p : Nat) : SameCalls s p s p :=
  ⟨fun _ => Iff.rfl, fun _ => Iff.rfl⟩

theorem trans (h : SameCalls s p t q) (h' : SameCalls t q u r) : SameCalls s p u r :=
  ⟨fun calls => (h.emits calls).trans (h'.emits calls),
    fun calls => (h.finishes calls).trans (h'.finishes calls)⟩

/-- Sliding changes no call sequence. -/
theorem of_slide (h : Slide s p q) : SameCalls s p s q where
  emits calls := by
    constructor
    · rintro ⟨r, hp⟩
      obtain ⟨r', hq, -⟩ := h.path_of_path hp
      exact ⟨r', hq⟩
    · rintro ⟨r, hq⟩
      exact ⟨r, h.path.trans hq⟩
  finishes calls := by
    constructor
    · rintro ⟨r, hp, hh⟩
      obtain ⟨r', hq, hr⟩ := h.path_of_path hp
      exact ⟨r', hq, hr hh⟩
    · rintro ⟨r, hq, hh⟩
      exact ⟨r, h.path.trans hq, hh⟩

end SameCalls

/-- The steps of `short` are those of `long` followed by a slide. A silent step of `long` may be
missing if nothing is ever called after it and control goes on forever. -/
structure Shortcut (long short : Transition) : Prop where
  sound {p r : Nat} {site : Option CallSite} :
    short p site r → ∃ q, long p site q ∧ Slide long q r
  complete {p q : Nat} {site : Option CallSite} :
    long p site q → (∃ r, short p site r ∧ Slide long q r) ∨
      (site = none ∧ Mute long q ∧ ∃ r, short p none r)

namespace Shortcut

variable {long short : Transition} {p q r : Nat} {calls : List CallSite}

theorem halted_iff (h : Shortcut long short) : Halted long p ↔ Halted short p := by
  constructor
  · intro hh site r hs
    obtain ⟨q, hq, -⟩ := h.sound hs
    exact hh site q hq
  · intro hh site q hs
    rcases h.complete hs with ⟨r, hr, -⟩ | ⟨-, -, r, hr⟩
    · exact hh site r hr
    · exact hh none r hr

/-- A path of shortcuts is a path. -/
theorem path_long (h : Shortcut long short) (hp : Path short p calls r) :
    Path long p calls r := by
  refine hp.expand fun p site r hs => ?_
  obtain ⟨q, hq, hslide⟩ := h.sound hs
  exact ⟨q, hq, hslide.path⟩

/-- The calls of a path can be made by shortcuts, from wherever the start of the path slides to. -/
theorem path_short (h : Shortcut long short) (hp : Path long p calls r)
    (hslide : Slide long p q) :
    ∃ r', Path short q calls r' ∧ (Halted long r → Halted short r') := by
  -- The induction is on the path; generalising over the slide lets a step that a shortcut jumps
  -- over be taken by the slide.
  induction hp generalizing q with
  | stop p =>
    refine ⟨q, .stop q, fun hh => ?_⟩
    cases hslide with
    | refl => exact h.halted_iff.mp hh
    | step hs _ _ => exact absurd hs (hh none _)
  | @silent p d r calls hs hp ih =>
    cases hslide with
    | refl =>
      rcases h.complete hs with ⟨f, hf, hdf⟩ | ⟨-, hmute, -⟩
      · obtain ⟨r', hr', hh⟩ := ih hdf
        exact ⟨r', .silent hf hr', hh⟩
      · obtain ⟨rfl, hh⟩ := hmute _ _ hp
        exact ⟨p, .stop p, fun hr => absurd hr hh⟩
    | step _ hu hq =>
      obtain ⟨-, rfl⟩ := hu _ _ hs
      exact ih hq
  | @call p d r site calls hs _ ih =>
    cases hslide with
    | refl =>
      rcases h.complete hs with ⟨f, hf, hdf⟩ | ⟨hnone, -⟩
      · obtain ⟨r', hr', hh⟩ := ih hdf
        exact ⟨r', .call hf hr', hh⟩
      · cases hnone
    | step _ hu _ => exact absurd (hu _ _ hs).1 (by simp)

/-- Shortcuts keep the call sequences of every point. -/
theorem sameCalls (h : Shortcut long short) (p : Nat) : SameCalls long p short p where
  emits calls := by
    constructor
    · rintro ⟨r, hp⟩
      obtain ⟨r', hr', -⟩ := h.path_short hp (.refl p)
      exact ⟨r', hr'⟩
    · rintro ⟨r, hp⟩
      exact ⟨r, h.path_long hp⟩
  finishes calls := by
    constructor
    · rintro ⟨r, hp, hh⟩
      obtain ⟨r', hr', hh'⟩ := h.path_short hp (.refl p)
      exact ⟨r', hr', hh' hh⟩
    · rintro ⟨r, hp, hh⟩
      exact ⟨r, h.path_long hp, h.halted_iff.mpr hh⟩

end Shortcut

end CallNgrams
