import Mathlib.Data.List.Nodup
import Mathlib.Data.List.Perm.Subperm
import Mathlib.Logic.Relation
import CallNgrams.Proofs.Flow.Collapse

/-!
# Where following jumps lands

Following jumps from a destination lands at the first command on the way that is no jump. If there
is none the way runs in a circle, and it lands at the highest index on the whole way, the cells
before the circle included. So what a destination lands at lands at itself, and retargeting a jump
to where it lands changes no landing.

The rule says nothing about the order of steps. `Follows` is the loop itself, which keeps the cells
that it has seen. It always ends, because it never sees a cell twice, and it ends where the rule
says.
-/

namespace CallNgrams.CellArray

open Relation

variable {array a b : CellArray} {p q i dest found last : Nat}

/-! ## The rule -/

/-- A jump leads from its cell to the first command at or after its target. -/
def Leaps (array : CellArray) (p q : Nat) : Prop :=
  ∃ target, array.command? p = some (.jump target) ∧ array.FirstCommand target q

/-- A jump leads to one cell only. -/
theorem leaps_rightUnique : Relator.RightUnique array.Leaps := by
  rintro p q r ⟨target, hp, hq⟩ ⟨target', hp', hr⟩
  obtain rfl : target = target' := by simpa using hp.symm.trans hp'
  exact hq.unique hr

theorem Leaps.isSome (h : array.Leaps p q) : (array.command? q).isSome := by
  obtain ⟨_, _, hfirst⟩ := h
  exact hfirst.isSome

/-- Following jumps from a command lands at a command that is no jump or, on a way of nothing but
jumps, at the highest index. -/
structure LandsFrom (array : CellArray) (found last : Nat) : Prop where
  way : ReflTransGen array.Leaps found last
  stops : (∀ target, array.command? last ≠ some (.jump target)) ∨
    ∀ q, ReflTransGen array.Leaps found q → q ≤ last ∧ ∃ r, array.Leaps q r

/-- Following jumps from a destination lands at `last`. -/
def Lands (array : CellArray) (dest last : Nat) : Prop :=
  ∃ found, array.FirstCommand dest found ∧ array.LandsFrom found last

namespace LandsFrom

/-- Where the way goes on, it goes on to the same landing. -/
theorem tail (h : array.LandsFrom p last) (hpq : array.Leaps p q)
    (hway : ReflTransGen array.Leaps q last) : array.LandsFrom q last :=
  ⟨hway, h.stops.imp_right fun hall r hr => hall r (.head hpq hr)⟩

/-- A landing lands at itself. -/
theorem self (h : array.LandsFrom found last) : array.LandsFrom last last :=
  ⟨.refl, h.stops.imp_right fun hall q hq => hall q (h.way.trans hq)⟩

/-- No way leads on from a landing that is no jump. -/
theorem eq_of_way (hstop : ∀ target, array.command? last ≠ some (.jump target))
    (hway : ReflTransGen array.Leaps last q) : q = last := by
  rcases hway.cases_head with heq | ⟨r, ⟨target, hjump, -⟩, -⟩
  · exact heq.symm
  · exact absurd hjump (hstop target)

/-- Following jumps from a command lands at one cell only. -/
theorem unique {last' : Nat} (h : array.LandsFrom found last)
    (h' : array.LandsFrom found last') : last = last' := by
  rcases h.stops with hstop | hall
  · rcases h'.stops with hstop' | hall'
    · rcases ReflTransGen.total_of_right_unique leaps_rightUnique h.way h'.way with hway | hway
      · exact (eq_of_way hstop hway).symm
      · exact eq_of_way hstop' hway
    · obtain ⟨-, r, target, hjump, -⟩ := hall' last h.way
      exact absurd hjump (hstop target)
  · rcases h'.stops with hstop' | hall'
    · obtain ⟨-, r, target, hjump, -⟩ := hall last' h'.way
      exact absurd hjump (hstop' target)
    · exact Nat.le_antisymm (hall' last h.way).1 (hall last' h'.way).1

end LandsFrom

theorem Lands.unique {last' : Nat} (h : array.Lands dest last) (h' : array.Lands dest last') :
    last = last' := by
  obtain ⟨found, hfound, hlast⟩ := h
  obtain ⟨found', hfound', hlast'⟩ := h'
  obtain rfl := hfound.unique hfound'
  exact hlast.unique hlast'

/-- Following jumps lands at a command. -/
theorem Lands.isSome (h : array.Lands dest last) : (array.command? last).isSome := by
  obtain ⟨found, hfound, hlast⟩ := h
  rcases hlast.way.cases_tail with heq | ⟨p, -, hleap⟩
  · rw [heq]
    exact hfound.isSome
  · exact hleap.isSome

/-- Jumps do not lead on from where they land. -/
theorem Lands.self (h : array.Lands dest last) : array.Lands last last := by
  have hsome := h.isSome
  obtain ⟨found, -, hlast⟩ := h
  exact ⟨last, .self hsome, hlast.self⟩

/-! ## Retargeting a jump -/

/-- Landings only depend on where commands are and which jumps are among them. -/
theorem Lands.congr (hsome : ∀ k, (b.command? k).isSome = (a.command? k).isSome)
    (hjumps : ∀ k target, b.command? k = some (.jump target) ↔ a.command? k = some (.jump target))
    (h : a.Lands dest last) : b.Lands dest last := by
  have hleaps : b.Leaps = a.Leaps := by
    funext p q
    refine propext (exists_congr fun target => ?_)
    rw [hjumps]
    exact and_congr_right fun _ => ⟨FirstCommand.congr fun k => (hsome k).symm,
      FirstCommand.congr hsome⟩
  obtain ⟨found, hfound, hway, hstops⟩ := h
  refine ⟨found, hfound.congr hsome, ?_, ?_⟩
  · rwa [hleaps]
  · simpa only [hleaps, ne_eq, hjumps] using hstops

section Retarget

variable {target : Nat} (hjump : a.command? i = some (.jump target)) (hlast : a.Lands target last)
  (hagree : AgreeBut i a b) (hretarget : b.command? i = some (.jump last))

include hjump hagree hretarget

/-- Retargeting a jump leaves commands where they are. -/
theorem isSome_of_retarget (k : Nat) : (b.command? k).isSome = (a.command? k).isSome := by
  by_cases hk : k = i
  · rw [hk, hjump, hretarget]
    rfl
  · rw [hagree.command? k hk]

include hlast

/-- A retargeted jump leaps to its landing at once; all other leaps stay. -/
theorem leaps_retarget : b.Leaps p q ↔ if p = i then q = last else a.Leaps p q := by
  have hsome := isSome_of_retarget hjump hagree hretarget
  split
  case isTrue hp =>
    subst p
    have hself : b.FirstCommand last last := .self ((hsome last).trans hlast.isSome)
    constructor
    · rintro ⟨target', hjump', hfirst⟩
      obtain rfl : last = target' := by simpa using hretarget.symm.trans hjump'
      exact hfirst.unique hself
    · rintro rfl
      exact ⟨q, hretarget, hself⟩
  case isFalse hp =>
    refine exists_congr fun target => ?_
    rw [hagree.command? p hp]
    exact and_congr_right fun _ => ⟨FirstCommand.congr fun k => (hsome k).symm,
      FirstCommand.congr hsome⟩

/-- The ways that are left are ways of before. -/
theorem way_of_retarget (h : ReflTransGen b.Leaps p q) : ReflTransGen a.Leaps p q := by
  refine reflTransGen_closed (fun p q hleap => ?_) _ _ h
  rw [leaps_retarget hjump hlast hagree hretarget] at hleap
  split at hleap
  case isTrue hp =>
    obtain ⟨found, hfound, hfrom⟩ := hlast
    rw [hp, hleap]
    exact .head ⟨target, hjump, hfound⟩ hfrom.way
  case isFalse => exact .single hleap

/-- Where a way of before lands, it still leads: from the jump on it is the landing of the jump. -/
theorem way_retarget {l : Nat} (h : a.LandsFrom p l) : ReflTransGen b.Leaps p l := by
  have hway := h.way
  induction hway using ReflTransGen.head_induction_on with
  | refl => exact .refl
  | @head p q hpq hql ih =>
    by_cases hp : p = i
    · have hlanding : l = last := by
        obtain ⟨found, hfound, hfrom⟩ := hlast
        have hq : q = found := leaps_rightUnique hpq (hp ▸ ⟨target, hjump, hfound⟩)
        exact (h.tail hpq hql).unique (hq ▸ hfrom)
      refine .single ((leaps_retarget hjump hlast hagree hretarget).mpr ?_)
      rwa [if_pos hp]
    · refine .head ((leaps_retarget hjump hlast hagree hretarget).mpr ?_) (ih (h.tail hpq hql))
      rwa [if_neg hp]

/-- Retargeting a jump to its landing changes no landing. -/
theorem Lands.retarget {l : Nat} (h : a.Lands dest l) : b.Lands dest l := by
  obtain ⟨found, hfound, hfrom⟩ := h
  have hsome := isSome_of_retarget hjump hagree hretarget
  refine ⟨found, hfound.congr hsome, way_retarget hjump hlast hagree hretarget hfrom, ?_⟩
  refine hfrom.stops.imp (fun hstop t ht => ?_) fun hall q hq => ?_
  · by_cases hl : l = i
    · exact hstop target (hl ▸ hjump)
    · exact hstop t (hagree.command? l hl ▸ ht)
  · obtain ⟨hle, r, hr⟩ := hall q (way_of_retarget hjump hlast hagree hretarget hq)
    refine ⟨hle, if q = i then last else r, (leaps_retarget hjump hlast hagree hretarget).mpr ?_⟩
    by_cases hqi : q = i
    · simp [hqi]
    · simpa [hqi] using hr

end Retarget

/-! ## The loop -/

/-- The loop that follows jumps from a destination, having seen the given cells: it ends at a
command that is no jump, with an error if there is no command to go to, and with the highest cell
seen when a jump leads to a cell that it has seen. -/
inductive Follows (array : CellArray) : List Nat → Nat → Except Error Nat → Prop where
  | lost {seen : List Nat} {dest : Nat} {e : Error} :
      array.commandFrom dest = .error e → Follows array seen dest (.error e)
  | stops {seen : List Nat} {dest found : Nat} :
      array.commandFrom dest = .ok found →
      (∀ target, array.command? found ≠ some (.jump target)) →
      Follows array seen dest (.ok found)
  | astray {seen : List Nat} {dest found target : Nat} {e : Error} :
      array.commandFrom dest = .ok found → array.command? found = some (.jump target) →
      array.commandFrom target = .error e → Follows array seen dest (.error e)
  | circles {seen : List Nat} {dest found target next highest : Nat} :
      array.commandFrom dest = .ok found → array.command? found = some (.jump target) →
      array.commandFrom target = .ok next → next ∈ found :: seen →
      highest ∈ found :: seen → (∀ p ∈ found :: seen, p ≤ highest) →
      Follows array seen dest (.ok highest)
  | onward {seen : List Nat} {dest found target next : Nat} {result : Except Error Nat} :
      array.commandFrom dest = .ok found → array.command? found = some (.jump target) →
      array.commandFrom target = .ok next → next ∉ found :: seen →
      Follows array (found :: seen) next result → Follows array seen dest result

/-- The loop has one result. -/
theorem Follows.unique {seen : List Nat} {dest : Nat} {result result' : Except Error Nat}
    (h : array.Follows seen dest result) (h' : array.Follows seen dest result') :
    result = result' := by
  induction h generalizing result' with
  | lost | stops | astray | circles | onward => cases h' <;> grind

section Chase

variable {steps highest target next : Nat} {seen : List Nat}

/-- The loop stops at a command that is no jump. -/
theorem chase_stop (hdest : array.commandFrom dest = .ok found)
    (hstop : ∀ target, array.command? found ≠ some (.jump target)) :
    array.chase (steps + 1) highest dest = .ok found := by
  rw [chase, hdest]
  simp only [bind, Except.bind]

/-- At a jump the loop goes on to its target, unless the jump leads to itself. -/
theorem chase_jump (hdest : array.commandFrom dest = .ok found)
    (hjump : array.command? found = some (.jump target)) :
    array.chase (steps + 1) highest dest = array.commandFrom target >>= fun next =>
      if next = found then .ok (max highest found)
      else array.chase steps (max highest found) next := by
  rw [chase, hdest]
  simp only [bind, Except.bind, hjump]

/-- Among jumps that lead to one another nothing higher is ever met. -/
theorem chase_circle {points : List Nat} (hp : p ∈ points)
    (hclosed : ∀ p ∈ points, ∃ q ∈ points, array.Leaps p q) (hle : ∀ p ∈ points, p ≤ highest) :
    array.chase steps highest p = .ok highest := by
  induction steps generalizing p with
  | zero => rfl
  | succ steps ih =>
    obtain ⟨q, hq, target, hjump, hfirst⟩ := hclosed p hp
    have hself : array.commandFrom p = .ok p := commandFrom_self (by rw [hjump]; rfl)
    rw [chase_jump hself hjump, commandFrom_eq_ok hfirst, Nat.max_eq_left (hle p hp)]
    simp only [bind, Except.bind]
    split
    · rfl
    · exact ih hq

/-- Each of the cells seen is a jump that leads to one of them or to the destination. -/
def LeadOn (array : CellArray) (seen : List Nat) (dest : Nat) : Prop :=
  ∀ p ∈ seen, ∃ q, array.Leaps p q ∧ (q ∈ seen ∨ array.FirstCommand dest q)

namespace LeadOn

/-- With the cell that is visited, every cell seen leads to another one or to the next. -/
theorem cons (h : array.LeadOn seen dest) (hfound : array.FirstCommand dest found)
    (hleap : array.Leaps found next) :
    ∀ p ∈ found :: seen, ∃ q, array.Leaps p q ∧ (q ∈ found :: seen ∨ q = next) := by
  intro p hp
  rcases List.mem_cons.mp hp with rfl | hp
  · exact ⟨next, hleap, .inr rfl⟩
  · obtain ⟨q, hpq, hq | hq⟩ := h p hp
    · exact ⟨q, hpq, .inl (List.mem_cons_of_mem _ hq)⟩
    · exact ⟨q, hpq, .inl (List.mem_cons.mpr (.inl (hq.unique hfound)))⟩

/-- The cells seen still lead on after one more jump. -/
theorem onward (h : array.LeadOn seen dest) (hfound : array.FirstCommand dest found)
    (hleap : array.Leaps found next) : array.LeadOn (found :: seen) next := by
  intro p hp
  obtain ⟨q, hpq, hq | rfl⟩ := h.cons hfound hleap p hp
  · exact ⟨q, hpq, .inl hq⟩
  · exact ⟨q, hpq, .inr (.self hleap.isSome)⟩

/-- A jump back to a cell seen closes a circle. -/
theorem closed (h : array.LeadOn seen dest) (hfound : array.FirstCommand dest found)
    (hleap : array.Leaps found next) (hnext : next ∈ found :: seen) :
    ∀ p ∈ found :: seen, ∃ q ∈ found :: seen, array.Leaps p q := by
  intro p hp
  obtain ⟨q, hpq, hq | rfl⟩ := h.cons hfound hleap p hp
  · exact ⟨q, hq, hpq⟩
  · exact ⟨q, hnext, hpq⟩

end LeadOn

/-- What the loop knows on its way: it has seen each cell once, each was a jump that led to another
one or leads on, and the highest of them is known. -/
structure Trail (array : CellArray) (seen : List Nat) (highest dest : Nat) : Prop where
  nodup : seen.Nodup
  fresh {found : Nat} : array.FirstCommand dest found → found ∉ seen
  leads : array.LeadOn seen dest
  le : ∀ p ∈ seen, p ≤ highest
  mem : highest ∈ seen ∨ highest = 0 ∧ seen = []

namespace Trail

theorem start (dest : Nat) : array.Trail [] 0 dest :=
  ⟨.nil, by simp, by simp [LeadOn], by simp, .inr ⟨rfl, rfl⟩⟩

/-- No more cells are seen than there are commands. -/
theorem length_le (h : array.Trail seen highest dest) : seen.length ≤ array.commandCount := by
  rw [commandCount_eq]
  refine (List.subperm_of_subset h.nodup fun p hp => ?_).length_le
  obtain ⟨q, ⟨target, hjump, -⟩, -⟩ := h.leads p hp
  simp [lt_size_of_command? hjump, hjump]

theorem le_max (h : array.Trail seen highest dest) :
    ∀ p ∈ found :: seen, p ≤ max highest found := by
  intro p hp
  rcases List.mem_cons.mp hp with rfl | hp
  · exact Nat.le_max_right _ _
  · exact (h.le p hp).trans (Nat.le_max_left _ _)

theorem max_mem (h : array.Trail seen highest dest) : max highest found ∈ found :: seen := by
  rcases h.mem with hmem | ⟨rfl, rfl⟩
  · rcases Nat.le_total highest found with hle | hle
    · rw [Nat.max_eq_right hle]
      exact List.mem_cons_self
    · rw [Nat.max_eq_left hle]
      exact List.mem_cons_of_mem _ hmem
  · simp

/-- The loop knows as much after one more jump to a new cell. -/
theorem onward (h : array.Trail seen highest dest) (hfound : array.FirstCommand dest found)
    (hleap : array.Leaps found next) (hnext : next ∉ found :: seen) :
    array.Trail (found :: seen) (max highest found) next where
  nodup := List.nodup_cons.mpr ⟨h.fresh hfound, h.nodup⟩
  fresh hfirst := by rwa [hfirst.unique (.self hleap.isSome)]
  leads := h.leads.onward hfound hleap
  le := h.le_max
  mem := .inl h.max_mem

end Trail

/-- The loop ends with what following jumps for a bounded number of steps gives, if the bound and
the cells seen are more than all commands. -/
theorem Trail.follows (h : array.Trail seen highest dest)
    (hsteps : array.commandCount < seen.length + steps) :
    array.Follows seen dest (array.chase steps highest dest) := by
  induction steps generalizing seen highest dest with
  | zero =>
    have hle := h.length_le
    omega
  | succ steps ih =>
    cases hdest : array.commandFrom dest with
    | error e =>
      rw [chase, hdest]
      exact .lost hdest
    | ok found =>
      by_cases hstop : ∀ target, array.command? found ≠ some (.jump target)
      · rw [chase_stop hdest hstop]
        exact .stops hdest hstop
      · push Not at hstop
        obtain ⟨target, hjump⟩ := hstop
        rw [chase_jump hdest hjump]
        cases htarget : array.commandFrom target with
        | error e => exact .astray hdest hjump htarget
        | ok next =>
          have hfound := commandFrom_eq_ok_iff.mp hdest
          have hleap : array.Leaps found next :=
            ⟨target, hjump, commandFrom_eq_ok_iff.mp htarget⟩
          simp only [bind, Except.bind]
          by_cases hseen : next ∈ found :: seen
          · -- The jump closes a circle among the cells seen, so the bound is used up in it.
            have hclosed := h.leads.closed hfound hleap hseen
            have hend : (if next = found then .ok (max highest found)
                else array.chase steps (max highest found) next) =
                (.ok (max highest found) : Except Error Nat) := by
              split
              · rfl
              · exact chase_circle hseen hclosed h.le_max
            rw [hend]
            exact .circles hdest hjump htarget hseen h.max_mem h.le_max
          · have hne : next ≠ found := fun he => hseen (he ▸ List.mem_cons_self)
            rw [if_neg hne]
            refine .onward hdest hjump htarget hseen (ih (h.onward hfound hleap hseen) ?_)
            rw [List.length_cons]
            omega

end Chase

/-- The loop that follows jumps always ends, and with the final destination. -/
theorem follows_finalDestination {commands : Nat} (hcommands : array.commandCount ≤ commands)
    (dest : Nat) : array.Follows [] dest (array.finalDestination commands dest) :=
  (Trail.start dest).follows (by
    rw [List.length_nil]
    omega)

/-! ## The loop keeps to the rule -/

/-- The loop has come from `start`, through the cells seen. -/
structure Passed (array : CellArray) (start : Nat) (seen : List Nat) (dest : Nat) : Prop where
  way {found : Nat} : array.FirstCommand dest found → ReflTransGen array.Leaps start found
  behind : ∀ p ∈ seen, ReflTransGen array.Leaps start p
  leads : array.LeadOn seen dest
  start : start ∈ seen ∨ array.FirstCommand dest start

namespace Passed

variable {start next : Nat} {seen : List Nat}

/-- All cells seen lie on the way from the start. -/
theorem way_cons (h : array.Passed start seen dest) (hfound : array.FirstCommand dest found) :
    ∀ p ∈ found :: seen, ReflTransGen array.Leaps start p := by
  intro p hp
  rcases List.mem_cons.mp hp with rfl | hp
  · exact h.way hfound
  · exact h.behind p hp

theorem start_mem (h : array.Passed start seen dest) (hfound : array.FirstCommand dest found) :
    start ∈ found :: seen := by
  rcases h.start with hseen | hfirst
  · exact List.mem_cons_of_mem _ hseen
  · exact List.mem_cons.mpr (.inl (hfirst.unique hfound))

/-- One more jump leads on from the start. -/
theorem onward (h : array.Passed start seen dest) (hfound : array.FirstCommand dest found)
    (hleap : array.Leaps found next) : array.Passed start (found :: seen) next where
  way hfirst := by
    rw [hfirst.unique (.self hleap.isSome)]
    exact (h.way hfound).tail hleap
  behind := h.way_cons hfound
  leads := h.leads.onward hfound hleap
  start := .inl (h.start_mem hfound)

end Passed

/-- Where the loop ends, following jumps lands. -/
theorem Follows.landsFrom {seen : List Nat} {result : Except Error Nat} {start : Nat}
    (h : array.Follows seen dest result) (hresult : result = .ok last)
    (hpassed : array.Passed start seen dest) : array.LandsFrom start last := by
  induction h with
  | lost | astray => cases hresult
  | stops hdest hstop =>
    obtain rfl := Except.ok.inj hresult
    exact ⟨hpassed.way (commandFrom_eq_ok_iff.mp hdest), .inl hstop⟩
  | @circles seen dest found target next highest hdest hjump htarget hnext hmem hle =>
    obtain rfl := Except.ok.inj hresult
    have hfound := commandFrom_eq_ok_iff.mp hdest
    have hleap : array.Leaps found next := ⟨target, hjump, commandFrom_eq_ok_iff.mp htarget⟩
    have hclosed := hpassed.leads.closed hfound hleap hnext
    refine ⟨hpassed.way_cons hfound highest hmem, .inr fun q hq => ?_⟩
    have hq : q ∈ found :: seen := by
      induction hq with
      | refl => exact hpassed.start_mem hfound
      | tail _ hleap ih =>
        obtain ⟨r, hr, hleap'⟩ := hclosed _ ih
        rwa [leaps_rightUnique hleap hleap']
    obtain ⟨r, -, hr⟩ := hclosed q hq
    exact ⟨hle q hq, r, hr⟩
  | @onward seen dest found target next result hdest hjump htarget _ _ ih =>
    have hleap : array.Leaps found next := ⟨target, hjump, commandFrom_eq_ok_iff.mp htarget⟩
    exact ih hresult (hpassed.onward (commandFrom_eq_ok_iff.mp hdest) hleap)

/-- The loop only fails at a jump that leads nowhere. -/
theorem Follows.exists_stuck {seen : List Nat} {result : Except Error Nat} {e : Error}
    (h : array.Follows seen dest result) (hresult : result = .error e)
    (hfound : array.FirstCommand dest found) :
    ∃ p, ReflTransGen array.Leaps found p ∧ (∃ target, array.command? p = some (.jump target)) ∧
      ¬∃ q, array.Leaps p q := by
  induction h generalizing found with
  | lost hdest =>
    rw [commandFrom_eq_ok hfound] at hdest
    cases hdest
  | stops | circles => cases hresult
  | @astray _ _ found' target _ hdest hjump htarget =>
    obtain rfl := hfound.unique (commandFrom_eq_ok_iff.mp hdest)
    refine ⟨found, .refl, ⟨target, hjump⟩, ?_⟩
    rintro ⟨q, target', hjump', hfirst⟩
    obtain rfl : target = target' := by simpa using hjump.symm.trans hjump'
    rw [commandFrom_eq_ok hfirst] at htarget
    cases htarget
  | @onward _ _ found' target next _ hdest hjump htarget _ _ ih =>
    obtain rfl := hfound.unique (commandFrom_eq_ok_iff.mp hdest)
    have hleap : array.Leaps found next := ⟨target, hjump, commandFrom_eq_ok_iff.mp htarget⟩
    obtain ⟨p, hway, hp⟩ := ih hresult (.self hleap.isSome)
    exact ⟨p, .head hleap hway, hp⟩

/-- The final destination of an index is where following jumps from it lands. -/
theorem finalDestination_eq_ok_iff {commands : Nat} (hcommands : array.commandCount ≤ commands) :
    array.finalDestination commands dest = .ok last ↔ array.Lands dest last := by
  have hfollows := follows_finalDestination hcommands dest
  have hlands : ∀ {last}, array.finalDestination commands dest = .ok last →
      array.Lands dest last := by
    intro last h
    rw [h] at hfollows
    cases hdest : array.commandFrom dest with
    | error e =>
      rw [finalDestination, chase, hdest] at h
      cases h
    | ok found =>
      have hfound := commandFrom_eq_ok_iff.mp hdest
      have hpassed : array.Passed found [] dest := by
        refine ⟨fun hfirst => ?_, by simp, by simp [LeadOn], .inr hfound⟩
        rw [hfirst.unique hfound]
      exact ⟨found, hfound, hfollows.landsFrom rfl hpassed⟩
  refine ⟨hlands, fun h => ?_⟩
  cases hresult : array.finalDestination commands dest with
  | ok last' => rw [h.unique (hlands hresult)]
  | error e =>
    obtain ⟨found, hfound, hfrom⟩ := h
    obtain ⟨p, hway, ⟨target, hjump⟩, hstuck⟩ := hfollows.exists_stuck hresult hfound
    rcases hfrom.stops with hstop | hall
    · -- A stuck jump and a command that is no jump cannot both end one way.
      rcases ReflTransGen.total_of_right_unique leaps_rightUnique hfrom.way hway with hon | hon
      · exact absurd (LandsFrom.eq_of_way hstop hon ▸ hjump) (hstop target)
      · rcases hon.cases_head with heq | ⟨r, hr, -⟩
        · exact absurd (heq ▸ hjump) (hstop target)
        · exact absurd ⟨r, hr⟩ hstuck
    · exact absurd (hall p hway).2 hstuck

end CallNgrams.CellArray
