import CallNgrams.Proofs.Flow.Jumps
import CallNgrams.Proofs.Loop

/-!
# Collapsing jumps keeps the calls

Collapsing rewrites one cell after the other, and each rewriting replaces destinations by others
that control slides to. A branch may lose a target that collapses to the following index: either
that index is its fallthrough, or nothing happens any more behind the target.
-/

namespace CallNgrams.CellArray

/-- An array as decoding lays it out: a cell falls through to the following index if that holds a
command, except that jumps there may have been followed. -/
structure LaidOut (array : CellArray) : Prop extends array.InRange where
  straight {i dest : Nat} {command : Command} :
    array.next? i = some dest → array.command? (i + 1) = some command → ¬command.IsJump →
      dest = i + 1

/-- Two arrays hold commands at the same indices, and every point has the same call sequences. -/
structure Collapses (a b : CellArray) : Prop where
  size : b.size = a.size
  entrance : b.entrance = a.entrance
  isSome : ∀ i, (b.command? i).isSome = (a.command? i).isSome
  sameCalls : ∀ p, SameCalls a.Drift p b.Drift p

/-- Two arrays differ at one index at most. -/
structure AgreeBut (i : Nat) (a b : CellArray) : Prop where
  size : b.size = a.size
  entrance : b.entrance = a.entrance
  command? : ∀ j, j ≠ i → b.command? j = a.command? j
  next? : ∀ j, j ≠ i → b.next? j = a.next? j

/-- The destinations of one cell hold commands. -/
structure ResolvedAt (array : CellArray) (i : Nat) : Prop where
  next {dest : Nat} : array.next? i = some dest → (array.command? dest).isSome
  destination {dest : Nat} {command : Command} :
    array.command? i = some command → dest ∈ command.destinations → (array.command? dest).isSome

variable {a b c : CellArray} {i : Nat}

theorem Collapses.refl (a : CellArray) : Collapses a a :=
  ⟨rfl, rfl, fun _ => rfl, fun p => .refl a.Drift p⟩

/-- Collapsing twice keeps call sequences. -/
theorem Collapses.trans (h : Collapses a b) (h' : Collapses b c) : Collapses a c where
  size := h'.size.trans h.size
  entrance := h'.entrance.trans h.entrance
  isSome i := (h'.isSome i).trans (h.isSome i)
  sameCalls p := (h.sameCalls p).trans (h'.sameCalls p)

theorem Collapses.commandCount (h : Collapses a b) : b.commandCount = a.commandCount :=
  commandCount_congr h.size h.isSome

theorem AgreeBut.trans (h : AgreeBut i a b) (h' : AgreeBut i b c) : AgreeBut i a c where
  size := h'.size.trans h.size
  entrance := h'.entrance.trans h.entrance
  command? j hj := (h'.command? j hj).trans (h.command? j hj)
  next? j hj := (h'.next? j hj).trans (h.next? j hj)

/-- A new fallthrough changes one cell at most. -/
theorem agreeBut_setNext (next : Option Nat) (hi : i < a.size) :
    AgreeBut i a (a.setNext i next) where
  size := size_setNext next
  entrance := rfl
  command? j _ := command?_setNext next
  next? j hj := by rw [next?_setNext next hi, ite_eq_right_iff.mpr fun he => absurd he.symm hj]

theorem agreeBut_setCommand (command : Command) (hi : i < a.size) :
    AgreeBut i a (a.setCommand i command) where
  size := size_setCommand command
  entrance := rfl
  command? j hj := by
    rw [command?_setCommand command hi, ite_eq_right_iff.mpr fun he => absurd he.symm hj]
  next? j _ := next?_setCommand command

/-- Away from the cell that differs, control can go the same ways. -/
theorem AgreeBut.drift_iff (h : AgreeBut i a b) {p q : Nat} {site : Option CallSite}
    (hp : p ≠ i) : b.Drift p site q ↔ a.Drift p site q := by
  cases hc : a.command? p with
  | none =>
    have hb : b.command? p = none := (h.command? p hp).trans hc
    by_cases hlt : p < a.size
    · rw [drift_of_empty hc hlt, drift_of_empty hb (h.size ▸ hlt)]
    · have hout {array : CellArray} (hsize : array.size = a.size)
          (hnone : array.command? p = none) : ¬array.Drift p site q := by
        rintro (⟨command, hsome, -⟩ | ⟨hlt', -⟩)
        · rw [hnone] at hsome
          cases hsome
        · exact hlt (hsize ▸ hlt')
      exact iff_of_false (hout h.size hb) (hout rfl hc)
  | some command =>
    rw [drift_of_command hc, drift_of_command ((h.command? p hp).trans hc), h.next? p hp]

/-- Rewriting one command, or its fallthrough, by shortcuts is a shortcut. -/
theorem AgreeBut.shortcut (h : AgreeBut i a b) {before after : Command}
    (hbefore : a.command? i = some before) (hafter : b.command? i = some after)
    (hsound : ∀ site r, after.Moves i (b.next? i) site r →
      ∃ q, before.Moves i (a.next? i) site q ∧ Slide a.Drift q r)
    (hcomplete : ∀ site q, before.Moves i (a.next? i) site q →
      (∃ r, after.Moves i (b.next? i) site r ∧ Slide a.Drift q r) ∨
        (site = none ∧ Mute a.Drift q ∧ ∃ r, after.Moves i (b.next? i) none r)) :
    Shortcut a.Drift b.Drift where
  sound {p r site} hs := by
    by_cases hp : p = i
    · subst hp
      obtain ⟨q, hq, hslide⟩ := hsound site r ((drift_of_command hafter).mp hs)
      exact ⟨q, (drift_of_command hbefore).mpr hq, hslide⟩
    · exact ⟨r, (h.drift_iff hp).mp hs, .refl r⟩
  complete {p q site} hs := by
    by_cases hp : p = i
    · subst hp
      simp only [drift_of_command hafter]
      exact hcomplete site q ((drift_of_command hbefore).mp hs)
    · exact .inl ⟨q, (h.drift_iff hp).mpr hs, .refl q⟩

/-- An array whose cell was rewritten by shortcuts is still laid out if the new destinations are in
range and a jump stays a jump. -/
theorem AgreeBut.laidOut (h : AgreeBut i a b) (ha : a.LaidOut)
    (hsome : (b.command? i).isSome = (a.command? i).isSome)
    (hnext : ∀ dest, b.next? i = some dest → dest < a.size)
    (hdest : ∀ command, b.command? i = some command → ∀ dest ∈ command.destinations,
      dest < a.size)
    (hfalls : ∀ command, b.command? i = some command → command.Falls → (b.next? i).isSome)
    (hjump : ∀ command, b.command? i = some command → ¬command.IsJump →
      ∃ command', a.command? i = some command' ∧ ¬command'.IsJump)
    (hstraight : ∀ dest command, b.next? i = some dest → a.command? (i + 1) = some command →
      ¬command.IsJump → dest = i + 1) :
    b.LaidOut where
  last := by
    rw [h.size]
    by_cases hi : a.size - 1 = i
    · rw [hi, hsome, ← hi]
      exact ha.last
    · rw [h.command? _ hi]
      exact ha.last
  entrance_lt := by
    rw [h.entrance, h.size]
    exact ha.entrance_lt
  next_lt {j dest} hn := by
    by_cases hj : j = i
    · subst hj
      exact h.size ▸ hnext dest hn
    · rw [h.next? j hj] at hn
      exact h.size ▸ ha.next_lt hn
  destination_lt {j dest command} hc hd := by
    by_cases hj : j = i
    · subst hj
      exact h.size ▸ hdest command hc dest hd
    · rw [h.command? j hj] at hc
      exact h.size ▸ ha.destination_lt hc hd
  falls {j command} hc hf := by
    by_cases hj : j = i
    · subst hj
      exact hfalls command hc hf
    · rw [h.command? j hj] at hc
      rw [h.next? j hj]
      exact ha.falls hc hf
  straight {j dest command} hn hc hnj := by
    obtain ⟨command', hc', hnj'⟩ :
        ∃ command', a.command? (j + 1) = some command' ∧ ¬command'.IsJump := by
      by_cases hj : j + 1 = i
      · rw [hj] at hc ⊢
        exact hjump command hc hnj
      · exact ⟨command, (h.command? _ hj).symm.trans hc, hnj⟩
    by_cases hj : j = i
    · subst hj
      exact hstraight dest command' hn hc' hnj'
    · rw [h.next? j hj] at hn
      exact ha.straight hn hc' hnj'

/-! ## One cell -/

/-- A change at one cell that shortens ways keeps call sequences. -/
theorem AgreeBut.collapses (h : AgreeBut i a b) (hshort : Shortcut a.Drift b.Drift)
    (hsome : (b.command? i).isSome = (a.command? i).isSome) : Collapses a b where
  size := h.size
  entrance := h.entrance
  isSome j := by
    by_cases hj : j = i
    · rw [hj, hsome]
    · rw [h.command? j hj]
  sameCalls := hshort.sameCalls

/-- A cell without a command takes no part in the control flow. -/
theorem AgreeBut.shortcut_of_empty (h : AgreeBut i a b) (hi : i < a.size)
    (ha : a.command? i = none) (hb : b.command? i = none) : Shortcut a.Drift b.Drift := by
  have hdrift {p q : Nat} {site : Option CallSite} : b.Drift p site q ↔ a.Drift p site q := by
    by_cases hp : p = i
    · subst hp
      rw [drift_of_empty ha hi, drift_of_empty hb (h.size ▸ hi)]
    · exact h.drift_iff hp
  exact ⟨fun hs => ⟨_, hdrift.mp hs, .refl _⟩, fun hs => .inl ⟨_, hdrift.mpr hs, .refl _⟩⟩

/-- The collapsed fallthrough of a cell is the final destination of its fallthrough. -/
theorem LaidOut.exists_finalNext (h : a.LaidOut) (i : Nat) :
    ∃ next, a.finalNext a.commandCount i = .ok next ∧ next.isSome = (a.next? i).isSome ∧
      ∀ last, next = some last → ∃ dest, a.next? i = some dest ∧ a.EndsAt dest last ∧
        a.finalDestination a.commandCount dest = .ok last := by
  cases hn : a.next? i with
  | none => exact ⟨none, by rw [finalNext, hn], rfl, fun _ hnone => by cases hnone⟩
  | some dest =>
    obtain ⟨last, hlast, hend⟩ := h.endsAt (h.next_lt hn)
    refine ⟨some last, ?_, rfl, fun last' he => ?_⟩
    · rw [finalNext, hn]
      simp only [hlast, Except.map]
    · obtain rfl := Option.some.inj he
      exact ⟨dest, rfl, hend, hlast⟩

/-- Collapsing the fallthrough of a cell keeps the calls. -/
theorem LaidOut.collapse_next (h : a.LaidOut) (hi : i < a.size) :
    ∃ next, a.finalNext a.commandCount i = .ok next ∧ (a.setNext i next).LaidOut ∧
      Collapses a (a.setNext i next) ∧ ∀ dest, next = some dest → (a.command? dest).isSome := by
  obtain ⟨next, hfinal, hsame, hends⟩ := h.exists_finalNext i
  have hagree := agreeBut_setNext next hi
  have hread : (a.setNext i next).next? i = next := by
    rw [next?_setNext next hi, ite_eq_left_iff.mpr fun hne => absurd rfl hne]
  have hfalls {site : Option CallSite} {command : Command} (q : Nat)
      (hm : ∀ next dest, next = some dest → command.Moves i next site dest)
      (hq : a.next? i = some q) :
      ∃ r, command.Moves i next site r ∧ Slide a.Drift q r := by
    rw [hq] at hsame
    obtain ⟨last, rfl⟩ := Option.isSome_iff_exists.mp hsame
    obtain ⟨dest, hd, hend, -⟩ := hends last rfl
    obtain rfl := Option.some.inj (hq.symm.trans hd)
    exact ⟨last, hm _ _ rfl, hend.slide⟩
  have hshort : Shortcut a.Drift (a.setNext i next).Drift := by
    cases hc : a.command? i with
    | none => exact hagree.shortcut_of_empty hi hc ((command?_setNext next).trans hc)
    | some command =>
      refine hagree.shortcut hc ((command?_setNext next).trans hc) ?_ ?_
      · rw [hread]
        intro site r hm
        cases hm with
        | jump => exact ⟨_, .jump, .refl _⟩
        | choose ht => exact ⟨_, .choose ht, .refl _⟩
        | decline hn =>
          obtain ⟨dest, hd, hend, -⟩ := hends r hn
          exact ⟨dest, .decline hd, hend.slide⟩
        | call hn =>
          obtain ⟨dest, hd, hend, -⟩ := hends r hn
          exact ⟨dest, .call hd, hend.slide⟩
      · rw [hread]
        intro site q hm
        cases hm with
        | jump => exact .inl ⟨_, .jump, .refl _⟩
        | choose ht => exact .inl ⟨_, .choose ht, .refl _⟩
        | decline hn => exact .inl (hfalls q (fun _ _ hd => .decline hd) hn)
        | call hn => exact .inl (hfalls q (fun _ _ hd => .call hd) hn)
  refine ⟨next, hfinal, ?_, hagree.collapses hshort (by simp), ?_⟩
  · refine hagree.laidOut h (by simp) ?_ ?_ ?_ ?_ ?_
    · rw [hread]
      intro last hlast
      obtain ⟨dest, -, hend, -⟩ := hends last hlast
      exact lt_size_of_isSome hend.isSome
    · simp only [command?_setNext]
      exact fun command hc dest hd => h.destination_lt hc hd
    · rw [hread, command?_setNext]
      exact fun command hc hf => hsame.trans (h.falls hc hf)
    · rw [command?_setNext]
      exact fun command hc hj => ⟨command, hc, hj⟩
    · rw [hread]
      intro last command hlast hc hj
      obtain ⟨dest, hd, -, hfd⟩ := hends last hlast
      rw [h.straight hd hc hj, finalDestination_self hc hj] at hfd
      exact (Except.ok.inj hfd).symm
  · intro last hlast
    obtain ⟨dest, -, hend, -⟩ := hends last hlast
    exact hend.isSome

/-- Rewriting a command by shortcuts keeps the calls. -/
theorem LaidOut.rewrite (h : a.LaidOut) {before after : Command}
    (hbefore : a.command? i = some before) (hjump : before.IsJump → after.IsJump)
    (hdest : ∀ dest ∈ after.destinations, (a.command? dest).isSome)
    (hfalls : after.Falls → before.Falls)
    (hsound : ∀ site r, after.Moves i (a.next? i) site r →
      ∃ q, before.Moves i (a.next? i) site q ∧ Slide a.Drift q r)
    (hcomplete : ∀ site q, before.Moves i (a.next? i) site q →
      (∃ r, after.Moves i (a.next? i) site r ∧ Slide a.Drift q r) ∨
        (site = none ∧ Mute a.Drift q ∧ ∃ r, after.Moves i (a.next? i) none r)) :
    (a.setCommand i after).LaidOut ∧ Collapses a (a.setCommand i after) := by
  have hi := lt_size_of_command? hbefore
  have hagree := agreeBut_setCommand after hi
  have hread : (a.setCommand i after).command? i = some after := by
    rw [command?_setCommand after hi, ite_eq_left_iff.mpr fun hne => absurd rfl hne]
  have hsome : ((a.setCommand i after).command? i).isSome = (a.command? i).isSome := by
    rw [hread, hbefore]
    rfl
  constructor
  · refine hagree.laidOut h hsome ?_ ?_ ?_ ?_ ?_
    · rw [next?_setCommand]
      exact fun dest hn => h.next_lt hn
    · rw [hread]
      rintro _ ⟨⟩ dest hd
      exact lt_size_of_isSome (hdest dest hd)
    · rw [hread, next?_setCommand]
      rintro _ ⟨⟩ hf
      exact h.falls hbefore (hfalls hf)
    · rw [hread]
      rintro _ ⟨⟩ hj
      exact ⟨before, hbefore, fun hb => hj (hjump hb)⟩
    · rw [next?_setCommand]
      exact fun dest command hn => h.straight hn
  · refine hagree.collapses (hagree.shortcut hbefore hread ?_ ?_) hsome
    · simpa only [next?_setCommand] using hsound
    · simpa only [next?_setCommand] using hcomplete

/-- Collapsing a jump keeps the calls. -/
theorem LaidOut.collapse_jump (h : a.LaidOut) {target : Nat}
    (hc : a.command? i = some (.jump target)) :
    ∃ last, a.finalDestination a.commandCount target = .ok last ∧
      (a.command? last).isSome ∧ (a.setCommand i (.jump last)).LaidOut ∧
      Collapses a (a.setCommand i (.jump last)) := by
  have htarget : target < a.size := h.destination_lt hc (by simp [Command.destinations])
  obtain ⟨last, hlast, hend⟩ := h.endsAt htarget
  refine ⟨last, hlast, hend.isSome, h.rewrite hc (fun _ => trivial) ?_ (fun hf => hf.elim) ?_ ?_⟩
  · simpa [Command.destinations] using hend.isSome
  · rintro _ _ ⟨⟩
    exact ⟨target, .jump, hend.slide⟩
  · rintro _ _ ⟨⟩
    exact .inl ⟨last, .jump, hend.slide⟩

/-- A target that collapses to the following index leads where the fallthrough leads, or nowhere. -/
theorem LaidOut.slide_or_mute (h : a.LaidOut) {target next : Nat} (hn : a.next? i = some next)
    (hend : a.EndsAt target (i + 1)) : Slide a.Drift target next ∨ Mute a.Drift target := by
  obtain ⟨command, hc⟩ := Option.isSome_iff_exists.mp hend.isSome
  cases command with
  | jump => exact .inr (hend.mute hc)
  | _ =>
    rw [h.straight hn hc (fun hj => hj)]
    exact .inl hend.slide

/-- Collapsing a branch keeps the calls, also if the branch becomes a jump. -/
theorem LaidOut.collapse_branch (h : a.LaidOut) {targets : List Nat}
    (hc : a.command? i = some (.branch targets))
    (hnext : ∀ dest, a.next? i = some dest → (a.command? dest).isSome) :
    ∃ command simplified,
      a.collapseBranch a.commandCount i targets = .ok (a.setCommand i command, simplified) ∧
      (∀ dest ∈ command.destinations, (a.command? dest).isSome) ∧
      (a.setCommand i command).LaidOut ∧ Collapses a (a.setCommand i command) := by
  obtain ⟨next, hn⟩ := Option.isSome_iff_exists.mp (h.falls hc trivial)
  obtain ⟨found, hfound, hback, hforth⟩ :=
    exists_mapM_ok targets fun target ht => h.endsAt (h.destination_lt hc ht)
  generalize hdests : Destinations.ofList (found.filter (· != i + 1)) = dests
  have hmem (last : Nat) : last ∈ dests ↔ last ∈ found ∧ last ≠ i + 1 := by
    simp [← hdests]
  have hsome : ∀ dest ∈ dests, (a.command? dest).isSome := by
    intro dest hd
    obtain ⟨target, -, hend⟩ := hback dest ((hmem dest).mp hd).1
    exact hend.isSome
  -- What becomes of a target: it is kept, it is the fallthrough, or it leads nowhere.
  have htarget : ∀ target ∈ targets, (∃ last ∈ dests, Slide a.Drift target last) ∨
      Slide a.Drift target next ∨ Mute a.Drift target := by
    intro target ht
    obtain ⟨last, hl, hend⟩ := hforth target ht
    by_cases he : last = i + 1
    · subst he
      exact .inr (h.slide_or_mute hn hend)
    · exact .inl ⟨last, (hmem last).mpr ⟨hl, he⟩, hend.slide⟩
  have hrun : a.collapseBranch a.commandCount i targets =
      if dests.isEmpty || dests == [next] then .ok (a.setCommand i (.jump next), true)
      else .ok (a.setCommand i (.branch dests), false) := by
    rw [collapseBranch, hfound]
    simp only [bind, Except.bind, hdests, hn]
  rw [hrun]
  split
  case isTrue hsimple =>
    have honly : ∀ last ∈ dests, last = next := by
      rcases Bool.or_eq_true_iff.mp hsimple with hempty | hone
      · simp [List.isEmpty_iff.mp hempty]
      · simp [eq_of_beq hone]
    have hsome' : ∀ dest ∈ (Command.jump next).destinations, (a.command? dest).isSome := by
      simpa [Command.destinations] using hnext next hn
    refine ⟨_, _, rfl, hsome', h.rewrite hc (fun hj => hj.elim) hsome' (fun hf => hf.elim) ?_ ?_⟩
    · rintro _ _ ⟨⟩
      exact ⟨next, .decline hn, .refl next⟩
    · intro site q hm
      cases hm with
      | decline hq =>
        obtain rfl := Option.some.inj (hn.symm.trans hq)
        exact .inl ⟨next, .jump, .refl next⟩
      | choose ht =>
        rcases htarget q ht with ⟨last, hl, hslide⟩ | hslide | hmute
        · exact .inl ⟨next, .jump, honly last hl ▸ hslide⟩
        · exact .inl ⟨next, .jump, hslide⟩
        · exact .inr ⟨rfl, hmute, next, .jump⟩
  case isFalse =>
    refine ⟨_, _, rfl, hsome, h.rewrite hc (fun hj => hj.elim) hsome (fun hf => hf) ?_ ?_⟩
    · intro site r hm
      cases hm with
      | decline hr => exact ⟨r, .decline hr, .refl r⟩
      | choose hr =>
        obtain ⟨target, ht, hend⟩ := hback r ((hmem r).mp hr).1
        exact ⟨target, .choose ht, hend.slide⟩
    · intro site q hm
      cases hm with
      | decline hq => exact .inl ⟨q, .decline hq, .refl q⟩
      | choose ht =>
        rcases htarget q ht with ⟨last, hl, hslide⟩ | hslide | hmute
        · exact .inl ⟨last, .choose hl, hslide⟩
        · exact .inl ⟨next, .decline hn, hslide⟩
        · exact .inr ⟨rfl, hmute, next, .decline hn⟩

/-- Collapsing one cell keeps the calls and resolves its destinations. -/
theorem LaidOut.collapseCell (h : a.LaidOut) (hi : i < a.size) :
    ∃ b simplified, collapseCell a.commandCount a i = .ok (b, simplified) ∧ b.LaidOut ∧
      Collapses a b ∧ AgreeBut i a b ∧ b.ResolvedAt i := by
  obtain ⟨next, hnext, hlaid, hcoll, hsome⟩ := h.collapse_next hi
  have hagree := agreeBut_setNext next hi
  have hread : (a.setNext i next).next? i = next := by
    rw [next?_setNext next hi, ite_eq_left_iff.mpr fun hne => absurd rfl hne]
  rw [CellArray.collapseCell, hnext, ← hcoll.commandCount]
  simp only [bind, Except.bind]
  generalize hmid : a.setNext i next = mid at *
  have hi' : i < mid.size := hcoll.size ▸ hi
  have hnext' : ∀ dest, mid.next? i = some dest → (mid.command? dest).isSome := by
    intro dest hd
    rw [hcoll.isSome]
    exact hsome dest (hread.symm.trans hd)
  -- A rewritten command leaves the fallthrough as it is, so only its destinations are new.
  have hfinish (command : Command) (hc : mid.Collapses (mid.setCommand i command))
      (hd : ∀ dest ∈ command.destinations, (mid.command? dest).isSome) :
      Collapses a (mid.setCommand i command) ∧ AgreeBut i a (mid.setCommand i command) ∧
        (mid.setCommand i command).ResolvedAt i := by
    refine ⟨hcoll.trans hc, hagree.trans (agreeBut_setCommand command hi'), ⟨?_, ?_⟩⟩
    · intro dest hn
      rw [next?_setCommand] at hn
      rw [hc.isSome]
      exact hnext' dest hn
    · intro dest command' hc' hdest
      rw [command?_setCommand command hi', ite_eq_left_iff.mpr fun hne => absurd rfl hne] at hc'
      obtain rfl := Option.some.inj hc'
      rw [hc.isSome]
      exact hd dest hdest
  split
  case h_1 target hc =>
    obtain ⟨last, hlast, hl, hlaid', hcoll'⟩ := hlaid.collapse_jump hc
    rw [hlast]
    exact ⟨_, _, rfl, hlaid', hfinish _ hcoll' (by simpa [Command.destinations] using hl)⟩
  case h_2 targets hc =>
    obtain ⟨command, simplified, hrun', hd, hlaid', hcoll'⟩ := hlaid.collapse_branch hc hnext'
    exact ⟨_, _, hrun', hlaid', hfinish command hcoll' hd⟩
  case h_3 hjump hbranch =>
    refine ⟨mid, false, rfl, hlaid, hcoll, hagree, ⟨fun hn => hnext' _ hn, ?_⟩⟩
    intro dest command hc hd
    cases command with
    | jump target => exact absurd hc (hjump target)
    | branch targets => exact absurd hc (hbranch targets)
    | _ => cases hd

/-! ## All cells -/

/-- The destinations of the other cells still hold commands. -/
theorem AgreeBut.resolvedAt (h : AgreeBut i a b) (hcoll : Collapses a b) {j : Nat} (hj : j ≠ i)
    (ha : a.ResolvedAt j) : b.ResolvedAt j where
  next hn := by
    rw [h.next? j hj] at hn
    rw [hcoll.isSome]
    exact ha.next hn
  destination hc hd := by
    rw [h.command? j hj] at hc
    rw [hcoll.isSome]
    exact ha.destination hc hd

/-- One pass over the cells keeps the calls and resolves all destinations. -/
theorem LaidOut.collapsePass (h : a.LaidOut) :
    ∃ b changed, collapsePass a.commandCount a = .ok (b, changed) ∧ b.LaidOut ∧
      Collapses a b ∧ ∀ i, b.ResolvedAt i := by
  let P (k : Nat) (s : CellArray × Bool) : Prop :=
    s.1.LaidOut ∧ Collapses a s.1 ∧ ∀ i < k, s.1.ResolvedAt i
  have hinit : P 0 (a, false) := ⟨h, .refl a, fun i hi => absurd hi (Nat.not_lt_zero i)⟩
  have hloop : ∃ s, CellArray.collapsePass a.commandCount a = .ok s ∧ P a.size s := by
    refine foldlM_range_ok hinit a.size ?_
    rintro k hk ⟨mid, changed⟩ ⟨hlaid, hcoll, hres⟩
    obtain ⟨b, simplified, hcell, hlaid', hcoll', hagree, hat⟩ :=
      hlaid.collapseCell (hcoll.size ▸ hk)
    refine ⟨(b, changed || simplified), ?_, hlaid', hcoll.trans hcoll', fun i hi => ?_⟩
    · simp only [← hcoll.commandCount, hcell, bind, Except.bind]
    · by_cases hik : i = k
      · exact hik ▸ hat
      · exact hagree.resolvedAt hcoll' hik (hres i (by omega))
  obtain ⟨⟨b, changed⟩, hrun, hlaid, hcoll, hres⟩ := hloop
  refine ⟨b, changed, hrun, hlaid, hcoll, fun i => ?_⟩
  by_cases hi : i < a.size
  · exact hres i hi
  · have hout : b.size ≤ i := by
      rw [hcoll.size]
      omega
    exact ⟨fun hn => absurd (lt_size_of_next? hn) (by omega),
      fun hc => absurd (lt_size_of_command? hc) (by omega)⟩

/-- Repeated passes keep the calls, and after the first one all destinations are resolved. -/
theorem LaidOut.collapseCells (h : a.LaidOut) (fuel : Nat) :
    ∃ b, collapseCells a.commandCount (fuel + 1) a = .ok b ∧ b.LaidOut ∧ Collapses a b ∧
      ∀ i, b.ResolvedAt i := by
  induction fuel generalizing a with
  | zero =>
    obtain ⟨b, changed, hrun, hlaid, hcoll, hres⟩ := h.collapsePass
    refine ⟨b, ?_, hlaid, hcoll, hres⟩
    rw [CellArray.collapseCells, hrun]
    cases changed <;> rfl
  | succ fuel ih =>
    obtain ⟨b, changed, hrun, hlaid, hcoll, hres⟩ := h.collapsePass
    rw [CellArray.collapseCells, hrun]
    cases changed with
    | false => exact ⟨b, rfl, hlaid, hcoll, hres⟩
    | true =>
      obtain ⟨c, hrun', hlaid', hcoll', hres'⟩ := ih hlaid
      rw [hcoll.commandCount] at hrun'
      exact ⟨c, hrun', hlaid', hcoll.trans hcoll', hres'⟩

/-- In a resolved array cells without a command are never entered. -/
theorem Resolved.path_step (h : a.Resolved) {p r : Nat} {calls : List CallSite}
    (hp : (a.command? p).isSome) (hd : Path a.Drift p calls r) :
    Path a.Step p calls r ∧ (a.command? r).isSome := by
  have hstep {p q : Nat} {site : Option CallSite} (hp : (a.command? p).isSome)
      (hs : a.Drift p site q) : a.Step p site q := by
    rcases hs with hs | ⟨-, hnone, -⟩
    · exact hs
    · rw [hnone] at hp
      cases hp
  induction hd with
  | stop p => exact ⟨.stop p, hp⟩
  | silent hs _ ih =>
    obtain ⟨hq, hr⟩ := ih (h.isSome_of_step (hstep hp hs))
    exact ⟨.silent (hstep hp hs) hq, hr⟩
  | call hs _ ih =>
    obtain ⟨hq, hr⟩ := ih (h.isSome_of_step (hstep hp hs))
    exact ⟨.call (hstep hp hs) hq, hr⟩

/-- In a resolved array control drifts exactly as it steps. -/
theorem Resolved.sameCalls_step (h : a.Resolved) {p : Nat} (hp : (a.command? p).isSome) :
    SameCalls a.Drift p a.Step p := by
  have hdrift {calls : List CallSite} {r : Nat} (hs : Path a.Step p calls r) :
      Path a.Drift p calls r :=
    hs.mono fun _ _ _ => .inl
  refine ⟨fun calls => ⟨?_, ?_⟩, fun calls => ⟨?_, ?_⟩⟩
  · rintro ⟨r, hr⟩
    exact ⟨r, (h.path_step hp hr).1⟩
  · rintro ⟨r, hr⟩
    exact ⟨r, hdrift hr⟩
  · rintro ⟨r, hr, hh⟩
    exact ⟨r, (h.path_step hp hr).1, fun site q hs => hh site q (.inl hs)⟩
  · rintro ⟨r, hr, hh⟩
    have hsome := (h.path_step hp (hdrift hr)).2
    refine ⟨r, hdrift hr, fun site q hs => ?_⟩
    rcases hs with hs | ⟨-, hnone, -⟩
    · exact hh site q hs
    · rw [hnone] at hsome
      cases hsome

/-- Collapsing the jumps of an array that is laid out succeeds, resolves all destinations and keeps
the call sequences from the entrance. -/
theorem LaidOut.collapseJumps (h : a.LaidOut) :
    ∃ b, a.collapseJumps = .ok b ∧ b.Resolved ∧
      SameCalls a.Drift a.entrance b.Step b.entrance := by
  obtain ⟨b, hrun, hlaid, hcoll, hres⟩ := h.collapseCells a.size
  obtain ⟨entrance, hent, hend⟩ := hlaid.endsAt hlaid.entrance_lt
  rw [hcoll.commandCount] at hent
  have hresolved : CellArray.Resolved { b with entrance := entrance } :=
    ⟨hend.isSome, fun hn => (hres _).next hn, fun hc => (hres _).destination hc, hlaid.falls⟩
  refine ⟨{ b with entrance := entrance }, ?_, hresolved, ?_⟩
  · rw [CellArray.collapseJumps, hrun]
    simp only [bind, Except.bind, hent]
  · have hslide := SameCalls.of_slide hend.slide
    rw [hcoll.entrance] at hslide
    exact ((hcoll.sameCalls a.entrance).trans hslide).trans (hresolved.sameCalls_step hend.isSome)

end CallNgrams.CellArray
