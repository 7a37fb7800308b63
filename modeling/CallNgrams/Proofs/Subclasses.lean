import Mathlib.Algebra.BigOperators.Group.Finset.Basic
import Mathlib.Logic.Relation
import CallNgrams.Hierarchy

/-!
# Deriving classes

Collecting the classes that derive from a class, with each class expanded once, gives all classes
that deriving steps lead to, except the class itself, also where classes derive from each other in
circles. It does not matter which pending name is taken next: each round takes one, and the names
noted for a class become pending once, so every collection comes to an end, and they all end with
the same set. The bound of the collection is never used up.
-/

namespace CallNgrams

open Relation

namespace ClassTable

variable {table : ClassTable} {name member : String} {collected : Std.TreeSet String}

/-- A table notes a member for a class. -/
def Notes (table : ClassTable) (name member : String) : Prop :=
  ∃ names, table[name]? = some names ∧ member ∈ names

/-- The members of a class are those that the table notes for it. -/
theorem mem_of : member ∈ table.of name ↔ table.Notes name member := by
  rw [of, Notes]
  split
  case h_1 names h => simp [h]
  case h_2 h => simp [h]

theorem of_eq {names : Std.TreeSet String} (h : table[name]? = some names) :
    table.of name = names.toList := by
  rw [of, h]

theorem contains_getD : (table.getD name ∅).contains member = true ↔ table.Notes name member := by
  rw [Std.TreeMap.getD_eq_getD_getElem?, Std.TreeSet.contains_iff_mem, Notes]
  cases table[name]? with
  | none => simp
  | some names => simp

theorem isEmpty_of : (table.of name).isEmpty = true ↔ ∀ member, ¬table.Notes name member := by
  rw [List.isEmpty_iff, List.eq_nil_iff_forall_not_mem]
  exact forall_congr' fun member => not_congr mem_of

/-- Tables with the same classes and the same notes list the same names. -/
theorem map_toList_congr {table' : ClassTable} (hmem : name ∈ table ↔ name ∈ table')
    (hnotes : ∀ member, table.Notes name member ↔ table'.Notes name member) :
    (table[name]?).map Std.TreeSet.toList = (table'[name]?).map Std.TreeSet.toList := by
  rw [Std.TreeMap.mem_iff_isSome_getElem?, Std.TreeMap.mem_iff_isSome_getElem?] at hmem
  unfold Notes at hnotes
  cases hleft : table[name]? with
  | none => simp_all
  | some names =>
    obtain ⟨names', hright⟩ := Option.isSome_iff_exists.mp (hmem.mp (by simp [hleft]))
    have hsame : ∀ member, member ∈ names ↔ member ∈ names' := by simpa [hleft, hright] using hnotes
    rw [hright, Option.map_some, Option.map_some,
      Std.TreeSet.Equiv.toList_eq (.of_forall_mem_iff hsame)]

/-- Noting a member adds it to its class and nothing else. -/
theorem notes_note {name' member' : String} :
    (table.note name member).Notes name' member' ↔
      (name, member) = (name', member') ∨ table.Notes name' member' := by
  rw [← contains_getD, ← contains_getD, note, Std.TreeMap.getD_insert, Prod.mk.injEq]
  by_cases hname : name = name'
  · subst hname
    simp [Std.TreeSet.contains_insert]
  · simp [hname]

theorem mem_note {name' : String} :
    name' ∈ table.note name member ↔ name = name' ∨ name' ∈ table := by
  rw [note, Std.TreeMap.mem_insert, Std.LawfulEqOrd.compare_eq_iff_eq]

/-! ## The bound of the collection -/

/-- The number of names noted for the classes that have not been collected. -/
def uncollected (table : ClassTable) (collected : Std.TreeSet String) : Nat :=
  ∑ name ∈ table.keys.toFinset with name ∉ collected, (table.of name).length

/-- All members together, counted class by class. -/
theorem total_eq (table : ClassTable) :
    table.total = ∑ name ∈ table.keys.toFinset, (table.of name).length := by
  have hsizes : (table.toList.map fun entry => entry.2.size) =
      table.toList.map fun entry => (table.of entry.1).length := by
    refine List.map_congr_left fun entry hentry => ?_
    have hget := Std.TreeMap.mem_toList_iff_getElem?_eq_some.mp hentry
    rw [of_eq hget, Std.TreeSet.length_toList]
  rw [List.sum_toFinset _ Std.TreeMap.nodup_keys, ← Std.TreeMap.map_fst_toList_eq_keys,
    List.map_map, List.sum_eq_foldl, total, hsizes]
  rfl

theorem uncollected_empty (table : ClassTable) : table.uncollected ∅ = table.total := by
  rw [uncollected, total_eq, Finset.filter_true_of_mem]
  exact fun name _ => Std.TreeSet.not_mem_emptyc

/-- The names noted for a class are no longer counted once it is collected. -/
theorem uncollected_insert (h : name ∉ collected) :
    (table.of name).length + table.uncollected (collected.insert name) =
      table.uncollected collected := by
  have herase : (table.keys.toFinset.filter fun other => other ∉ collected.insert name) =
      (table.keys.toFinset.filter fun other => other ∉ collected).erase name := by
    ext other
    simp only [Finset.mem_filter, Finset.mem_erase, Std.TreeSet.mem_insert,
      Std.LawfulEqOrd.compare_eq_iff_eq, not_or, ne_comm (a := other)]
    tauto
  rw [uncollected, uncollected, herase]
  by_cases hname : name ∈ table.keys.toFinset
  · exact Finset.add_sum_erase _ (fun other => (table.of other).length)
      (Finset.mem_filter.mpr ⟨hname, h⟩)
  · have hnone : table.of name = [] := by
      rw [List.mem_toFinset, Std.TreeMap.mem_keys, Std.TreeMap.mem_iff_isSome_getElem?] at hname
      rw [of, Option.not_isSome_iff_eq_none.mp hname]
    have hnot : name ∉ table.keys.toFinset.filter fun other => other ∉ collected :=
      fun hmem => hname (Finset.mem_filter.mp hmem).1
    rw [hnone, List.length_nil, Nat.zero_add, Finset.erase_eq_of_notMem hnot]

end ClassTable

/-! ## Collections -/

variable {table direct : ClassTable} {root name sub : String}

/-- A collection under way: the names that are still to be read, and those that were collected. -/
structure Collecting where
  pending : List String
  collected : Std.TreeSet String

namespace Collecting

variable {before after state : Collecting}

/-- The collection of what a table leads to from a class, before its first round. -/
def start (table : ClassTable) (root : String) : Collecting :=
  ⟨table.of root, ∅⟩

/-- One round of a collection takes some pending name. It is skipped if it is `root` or collected
already. Otherwise it is collected, and what is noted for it becomes pending, in any order. -/
inductive Step (table : ClassTable) (root : String) : Collecting → Collecting → Prop where
  | skip {pending rest : List String} {collected : Std.TreeSet String} {name : String} :
      pending.Perm (name :: rest) → name = root ∨ name ∈ collected →
      Step table root ⟨pending, collected⟩ ⟨rest, collected⟩
  | expand {pending rest pending' : List String} {collected : Std.TreeSet String} {name : String} :
      pending.Perm (name :: rest) → name ≠ root → name ∉ collected →
      pending'.Perm (table.of name ++ rest) →
      Step table root ⟨pending, collected⟩ ⟨pending', collected.insert name⟩

/-! ### Every collection ends -/

/-- The number of rounds that are left at most. -/
def remaining (table : ClassTable) (state : Collecting) : Nat :=
  state.pending.length + table.uncollected state.collected

/-- At first there are at most as many rounds left as names are noted, and those of the class itself
count twice. -/
theorem remaining_start (table : ClassTable) (root : String) :
    (start table root).remaining table = (table.of root).length + table.total := by
  rw [remaining, start, ClassTable.uncollected_empty]

/-- Each round leaves one round less. -/
theorem Step.remaining_eq (h : Step table root before after) :
    after.remaining table + 1 = before.remaining table := by
  cases h with
  | skip hperm =>
    simp only [remaining, hperm.length_eq, List.length_cons]
    omega
  | expand hperm _ hnew hperm' =>
    simp only [remaining, hperm.length_eq, hperm'.length_eq, List.length_cons, List.length_append,
      ← ClassTable.uncollected_insert hnew]
    omega

/-- No collection goes on forever, whichever names are taken first. -/
theorem wellFounded_step (table : ClassTable) (root : String) :
    WellFounded fun after before => Step table root before after := by
  refine Subrelation.wf (fun h => ?_) (measure (remaining table)).wf
  have hround := Step.remaining_eq h
  show remaining table _ < remaining table _
  omega

/-- A collection goes on as long as names are pending. -/
theorem exists_step (table : ClassTable) (root : String) (h : state.pending ≠ []) :
    ∃ after, Step table root state after := by
  obtain ⟨pending, collected⟩ := state
  obtain ⟨name, rest, rfl⟩ := List.exists_cons_of_ne_nil h
  by_cases hskip : name = root ∨ name ∈ collected
  · exact ⟨_, .skip (.refl _) hskip⟩
  · push Not at hskip
    exact ⟨_, .expand (.refl _) hskip.1 hskip.2 (.refl _)⟩

/-! ### What every collection ends with -/

/-- A name needs no further attention: it is `root`, it was collected, or it is pending. -/
def Covers (root : String) (state : Collecting) (name : String) : Prop :=
  name = root ∨ name ∈ state.collected ∨ name ∈ state.pending

/-- What every round keeps: only names that the table leads to are pending or collected, `root` is
not collected, and everything that is noted for `root` or a collected name is covered. -/
structure Valid (table : ClassTable) (root : String) (state : Collecting) : Prop where
  pending {name : String} : name ∈ state.pending → TransGen table.Notes root name
  collected {name : String} : name ∈ state.collected → name ≠ root ∧ TransGen table.Notes root name
  covers {name sub : String} : name = root ∨ name ∈ state.collected → table.Notes name sub →
    state.Covers root sub

/-- A collection starts with what its invariant asks for. -/
theorem valid_start (table : ClassTable) (root : String) : Valid table root (start table root) where
  pending hname := .single (ClassTable.mem_of.mp hname)
  collected hname := absurd hname Std.TreeSet.not_mem_emptyc
  covers hname hnote := by
    obtain rfl := hname.resolve_right Std.TreeSet.not_mem_emptyc
    exact .inr (.inr (ClassTable.mem_of.mpr hnote))

/-- What was covered stays covered: the name that is taken is collected, if it is not skipped. -/
theorem Step.covers (h : Step table root before after) (hname : before.Covers root name) :
    after.Covers root name := by
  cases h with
  | skip hperm hskip =>
    rcases hname with hroot | hcollected | hpending
    · exact .inl hroot
    · exact .inr (.inl hcollected)
    · rcases List.mem_cons.mp (hperm.mem_iff.mp hpending) with rfl | hrest
      · exact hskip.imp_right .inl
      · exact .inr (.inr hrest)
  | expand hperm _ _ hperm' =>
    rcases hname with hroot | hcollected | hpending
    · exact .inl hroot
    · exact .inr (.inl (Std.TreeSet.mem_insert.mpr (.inr hcollected)))
    · rcases List.mem_cons.mp (hperm.mem_iff.mp hpending) with rfl | hrest
      · exact .inr (.inl Std.TreeSet.mem_insert_self)
      · exact .inr (.inr (hperm'.mem_iff.mpr (List.mem_append_right _ hrest)))

/-- Every round keeps the invariant. -/
theorem Valid.step (h : Valid table root before) (hstep : Step table root before after) :
    Valid table root after := by
  have hcovers {name : String} : before.Covers root name → after.Covers root name := hstep.covers
  cases hstep with
  | skip hperm hskip =>
    exact ⟨fun hname => h.pending (hperm.mem_iff.mpr (List.mem_cons_of_mem _ hname)), h.collected,
      fun hname hnote => hcovers (h.covers hname hnote)⟩
  | @expand pending rest pending' collected taken hperm hroot hnew hperm' =>
    have htaken : TransGen table.Notes root taken :=
      h.pending (hperm.mem_iff.mpr List.mem_cons_self)
    have hinsert {name : String} : name ∈ collected.insert taken ↔
        taken = name ∨ name ∈ collected := by
      rw [Std.TreeSet.mem_insert, Std.LawfulEqOrd.compare_eq_iff_eq]
    refine ⟨fun hname => ?_, fun hname => ?_, fun hname hnote => ?_⟩
    · rcases List.mem_append.mp (hperm'.mem_iff.mp hname) with hnoted | hrest
      · exact htaken.tail (ClassTable.mem_of.mp hnoted)
      · exact h.pending (hperm.mem_iff.mpr (List.mem_cons_of_mem _ hrest))
    · rcases hinsert.mp hname with rfl | hold
      · exact ⟨hroot, htaken⟩
      · exact h.collected hold
    · rw [hinsert, or_left_comm] at hname
      rcases hname with rfl | hold
      · exact .inr (.inr (hperm'.mem_iff.mpr
          (List.mem_append_left _ (ClassTable.mem_of.mpr hnote))))
      · exact hcovers (h.covers hold hnote)

/-- So the invariant holds after any number of rounds. -/
theorem valid_of_run (h : ReflTransGen (Step table root) (start table root) state) :
    Valid table root state := by
  induction h with
  | refl => exact valid_start table root
  | tail _ hstep ih => exact ih.step hstep

/-- Without pending names, the collected ones are those that the table leads to from `root`, without
`root` itself. -/
theorem Valid.mem_collected (h : Valid table root state) (hended : state.pending = []) :
    sub ∈ state.collected ↔ sub ≠ root ∧ TransGen table.Notes root sub := by
  refine ⟨h.collected, fun hsub => ?_⟩
  obtain ⟨hne, hreach⟩ := hsub
  have hclosed {name sub : String} (hname : name = root ∨ name ∈ state.collected)
      (hnote : table.Notes name sub) : sub = root ∨ sub ∈ state.collected := by
    simpa [Covers, hended] using h.covers hname hnote
  -- a way may come back to `root`, which is not collected but whose notes are covered as well
  have hmem : sub = root ∨ sub ∈ state.collected := by
    clear hne
    induction hreach with
    | single hnote => exact hclosed (.inl rfl) hnote
    | tail _ hnote ih => exact hclosed ih hnote
  exact hmem.resolve_left hne

/-- A collection that cannot go on has collected what the table leads to. -/
theorem mem_collected_of_ended (hrun : ReflTransGen (Step table root) (start table root) state)
    (hended : ∀ after, ¬Step table root state after) :
    sub ∈ state.collected ↔ sub ≠ root ∧ TransGen table.Notes root sub := by
  refine (valid_of_run hrun).mem_collected (by_contra fun hpending => ?_)
  obtain ⟨after, hstep⟩ := exists_step table root hpending
  exact hended after hstep

/-- With a bound above the rounds that are left, collecting performs rounds until no name is
pending. -/
theorem run_collectFrom {fuel : Nat} {pending : List String} {collected : Std.TreeSet String}
    (hfuel : remaining table ⟨pending, collected⟩ < fuel) :
    ReflTransGen (Step table root) ⟨pending, collected⟩
      ⟨[], collectFrom table.of root fuel pending collected⟩ := by
  induction fuel generalizing pending collected with
  | zero => omega
  | succ fuel ih =>
    cases pending with
    | nil => exact .refl
    | cons name pending =>
      rw [collectFrom]
      split
      case isTrue hskip =>
        have hstep : Step table root ⟨name :: pending, collected⟩ ⟨pending, collected⟩ :=
          .skip (.refl _) (by simpa [Std.TreeSet.contains_iff_mem] using hskip)
        have hround := hstep.remaining_eq
        exact .head hstep (ih (by omega))
      case isFalse hskip =>
        simp only [Bool.or_eq_true, beq_iff_eq, Std.TreeSet.contains_iff_mem, not_or] at hskip
        have hstep : Step table root ⟨name :: pending, collected⟩
            ⟨table.of name ++ pending, collected.insert name⟩ :=
          .expand (.refl _) hskip.1 hskip.2 (.refl _)
        have hround := hstep.remaining_eq
        exact .head hstep (ih (by omega))

end Collecting

/-! ## All deriving classes -/

/-- The collection of the classes that derive from a class comes to its end. -/
theorem run_subclassesOf (direct : ClassTable) (name : String) :
    ReflTransGen (Collecting.Step direct name) (.start direct name)
      ⟨[], subclassesOf direct direct.total name⟩ := by
  refine Collecting.run_collectFrom ?_
  rw [← Collecting.start, Collecting.remaining_start]
  omega

/-- The collected classes are those that one or more deriving steps lead to, without the class
itself. -/
theorem mem_subclassesOf :
    sub ∈ subclassesOf direct direct.total name ↔ sub ≠ name ∧ TransGen direct.Notes name sub :=
  (Collecting.valid_of_run (run_subclassesOf direct name)).mem_collected rfl

/-- The classes with a directly deriving one have the deriving classes of each as their entries. -/
theorem getElem?_transitiveSubclasses {subclasses : Std.TreeSet String} :
    (transitiveSubclasses direct)[name]? = some subclasses ↔
      (∃ sub, direct.Notes name sub) ∧ subclassesOf direct direct.total name = subclasses := by
  have hnonempty (names : Std.TreeSet String) : (!names.isEmpty) = true ↔ ∃ sub, sub ∈ names := by
    rw [Bool.not_eq_true', ← Bool.not_eq_true, Std.TreeSet.isEmpty_iff_forall_not_mem]
    push Not
    rfl
  simp only [transitiveSubclasses, Std.TreeMap.getElem?_map, Std.TreeMap.getElem?_filter',
    Option.map_eq_some_iff, Option.filter_eq_some_iff, hnonempty, ClassTable.Notes]
  constructor
  · rintro ⟨names, ⟨hnames, sub, hsub⟩, hentry⟩
    exact ⟨⟨sub, names, hnames, hsub⟩, hentry⟩
  · rintro ⟨⟨sub, names, hnames, hsub⟩, hentry⟩
    exact ⟨names, ⟨hnames, sub, hsub⟩, hentry⟩

/-- The subclasses of a class are the other classes that deriving leads to from it. -/
theorem notes_transitiveSubclasses :
    (transitiveSubclasses direct).Notes name sub ↔
      sub ≠ name ∧ TransGen direct.Notes name sub := by
  simp only [ClassTable.Notes, getElem?_transitiveSubclasses, ← mem_subclassesOf]
  constructor
  · rintro ⟨_, ⟨-, rfl⟩, hsub⟩
    exact hsub
  · intro hsub
    obtain ⟨via, hvia, -⟩ := TransGen.head'_iff.mp (mem_subclassesOf.mp hsub).2
    exact ⟨_, ⟨⟨via, hvia⟩, rfl⟩, hsub⟩

/-- The table of all deriving classes is the closure of the direct one. No collection of deriving
classes goes on forever, in whatever order pending classes are read, and each one that cannot go on
has collected exactly the other classes that one or more deriving steps lead to. The table has
entries for the classes that some class derives from directly, and each entry is what such a
collection ends with. -/
theorem transitiveSubclasses_exact (direct : ClassTable) :
    (∀ name, WellFounded fun after before => Collecting.Step direct name before after) ∧
      (∀ name state, ReflTransGen (Collecting.Step direct name) (.start direct name) state →
        (∀ after, ¬Collecting.Step direct name state after) →
        ∀ sub, sub ∈ state.collected ↔ sub ≠ name ∧ TransGen direct.Notes name sub) ∧
      (∀ name, name ∈ transitiveSubclasses direct ↔ ∃ sub, direct.Notes name sub) ∧
      ∀ name subclasses, (transitiveSubclasses direct)[name]? = some subclasses →
        ReflTransGen (Collecting.Step direct name) (.start direct name) ⟨[], subclasses⟩ ∧
          ∀ sub, sub ∈ subclasses ↔ sub ≠ name ∧ TransGen direct.Notes name sub := by
  refine ⟨Collecting.wellFounded_step direct, fun name state hrun hended sub =>
    Collecting.mem_collected_of_ended hrun hended, fun name => ?_, fun name subclasses hentry => ?_⟩
  · simp only [Std.TreeMap.mem_iff_isSome_getElem?, Option.isSome_iff_exists,
      getElem?_transitiveSubclasses, exists_and_left, exists_eq', and_true]
  · obtain ⟨-, rfl⟩ := getElem?_transitiveSubclasses.mp hentry
    exact ⟨run_subclassesOf direct name, fun sub => mem_subclassesOf⟩

/-- Three classes that derive from each other in a circle, with a way back between two of them. -/
def ringTable : ClassTable :=
  (((ClassTable.note ∅ "A" "B").note "B" "C").note "C" "B").note "C" "A" |>.insert "E" ∅

/-- In a circle every class derives from every other one, but not from itself; a class that none
derives from has no entry. -/
theorem transitiveSubclasses_exact_ring :
    "E" ∉ transitiveSubclasses ringTable ∧ ∃ subclasses,
      (transitiveSubclasses ringTable)["B"]? = some subclasses ∧ "A" ∈ subclasses ∧
        "C" ∈ subclasses ∧ "B" ∉ subclasses := by
  obtain ⟨-, -, hentries, hexact⟩ := transitiveSubclasses_exact ringTable
  have hnotes (name sub : String) (h : (ringTable.getD name ∅).contains sub = true) :
      ringTable.Notes name sub := ClassTable.contains_getD.mp h
  have hbc : ringTable.Notes "B" "C" := hnotes "B" "C" (by decide +kernel)
  have hca : ringTable.Notes "C" "A" := hnotes "C" "A" (by decide +kernel)
  refine ⟨fun h => ?_, ?_⟩
  · obtain ⟨sub, hsub⟩ := (hentries "E").mp h
    have hnone : (ringTable.of "E").isEmpty = true := by decide +kernel
    exact ClassTable.isEmpty_of.mp hnone sub hsub
  · obtain ⟨subclasses, hentry⟩ := Option.isSome_iff_exists.mp
      (Std.TreeMap.mem_iff_isSome_getElem?.mp ((hentries "B").mpr ⟨"C", hbc⟩))
    obtain ⟨-, hmem⟩ := hexact "B" subclasses hentry
    exact ⟨subclasses, hentry, (hmem "A").mpr ⟨by decide, (TransGen.single hbc).tail hca⟩,
      (hmem "C").mpr ⟨by decide, .single hbc⟩, fun h => ((hmem "B").mp h).1 rfl⟩

end CallNgrams
