import Mathlib.Data.List.Forall2
import CallNgrams.Proofs.Search.Exhaustive

/-!
# Freer paths

Paths at the same program point, with the same callers behind them, are held back by different
things: a path may not enter the merge points that its activations have marked, it must be able to
pay, and it does not enter a method whose signature is among its last calls. A path that is held
back less can do whatever the other one does, and is held back less afterwards. Marks only count at
merge points that control can still get to.
-/

namespace CallNgrams

open Relation

/-! ## Activations and walks that are held back less -/

/-- An activation has no mark that control can get to from an index and that the other lacks. -/
def Activation.LessMarked (index : Nat) (free bound : Activation) : Prop :=
  ∀ mark ∈ free.marks, ReflTransGen bound.graph.Edge index mark → mark ∈ bound.marks

/-- An activation of the same method that is less marked. -/
structure Activation.Freer (index : Nat) (free bound : Activation) : Prop where
  method : free.method = bound.method
  graph : free.graph = bound.graph
  marks : free.LessMarked index bound

/-- A caller that waits at the same call and is held back less behind it. -/
structure Suspended.Freer (free bound : Suspended) : Prop where
  site : free.site = bound.site
  activation : free.activation.Freer bound.site bound.activation
  behind {node : Node} {dest : Nat} : bound.activation.graph.node? bound.site = some node →
    node.next = some dest → bound.activation.graph.Edge bound.site dest

/-- A path at the same program point with the same callers that is held back less, where grams are
compared as given. -/
structure Walk.Freer (grams : Gram → Gram → Prop) (free bound : Walk) : Prop where
  index : free.index = bound.index
  activation : free.activation.Freer bound.index bound.activation
  callers : List.Forall₂ Suspended.Freer free.callers bound.callers
  budget : bound.budget ≤ free.budget
  gram : grams free.gram bound.gram

/-- The same task of a path that is held back less. -/
inductive Task.Freer (grams : Gram → Gram → Prop) : Task → Task → Prop where
  | arrive {free bound : Walk} : free.Freer grams bound →
      Freer grams (.arrive free) (.arrive bound)
  | emit {free bound : Walk} {node : Node} {target : CallTarget} : free.Freer grams bound →
      bound.activation.graph.node? bound.index = some node → node.command = .call target →
      Freer grams (.emit free target node.next) (.emit bound target node.next)

/-- A comparison of grams under which paths make the same choices: the smaller gram has a call if
the greater one has, none of its last calls has a signature that is free in the greater one, and
forgetting old calls keeps the comparison. -/
structure Search.GramOrder (search : Search) (grams : Gram → Gram → Prop) : Prop where
  count_ne {free bound : Gram} : grams free bound → bound.count ≠ 0 → free.count ≠ 0
  recentlyFree {free bound : Gram} {signature : String} : grams free bound →
    bound.isRecentlyFree (search.options.size - 1) signature = true →
    free.isRecentlyFree (search.options.size - 1) signature = true
  keepLast {free bound : Gram} : grams free bound →
    grams (free.keepLast search.options.size) (bound.keepLast search.options.size)

/-- Behind an edge there is less ahead. -/
theorem Activation.Freer.step {i j : Nat} {free bound : Activation} (h : free.Freer i bound)
    (hedge : bound.graph.Edge i j) : free.Freer j bound :=
  ⟨h.method, h.graph, fun mark hmark hahead => h.marks mark hmark (.head hedge hahead)⟩

/-- Both callers wait at the same program point. -/
theorem Suspended.Freer.point_eq {free bound : Suspended} (h : free.Freer bound) :
    free.point = bound.point := by
  rw [Suspended.point, Suspended.point, h.site, h.activation.method]

namespace Walk.Freer

variable {grams : Gram → Gram → Prop} {free bound : Walk} {search : Search} {node : Node}

/-- All callers wait at the same program points. -/
theorem point_callers_eq (h : free.Freer grams bound) :
    free.callers.map Suspended.point = bound.callers.map Suspended.point := by
  rw [← List.forall₂_eq_eq_eq, List.forall₂_map_left_iff, List.forall₂_map_right_iff]
  exact h.callers.imp fun _ _ hcaller => hcaller.point_eq

/-- The paths have the same frame. -/
theorem frame_eq (h : free.Freer grams bound) : free.frame = bound.frame := by
  rw [Walk.frame, Walk.frame, Walk.point, Walk.point, h.index, h.activation.method,
    h.point_callers_eq]

/-- Either both paths have callers or neither has. -/
theorem isEmpty_eq (h : free.Freer grams bound) :
    free.callers.isEmpty = bound.callers.isEmpty := by
  rw [Bool.eq_iff_iff, List.isEmpty_iff_length_eq_zero, List.isEmpty_iff_length_eq_zero,
    h.callers.length_eq]

/-- The same methods are running on both paths. -/
theorem isRunning_eq (h : free.Freer grams bound) (signature : String) :
    free.isRunning signature = bound.isRunning signature := by
  have hany : ∀ callers : List Suspended,
      (callers.any fun caller => caller.activation.method.signature == signature) =
        (callers.map Suspended.point).any fun point => point.method.signature == signature := by
    intro callers
    rw [List.any_map]
    rfl
  rw [Walk.isRunning, Walk.isRunning, h.activation.method, hany, hany, h.point_callers_eq]

/-- Both paths are at the same node. -/
theorem node? (h : free.Freer grams bound)
    (hnode : bound.activation.graph.node? bound.index = some node) :
    free.activation.graph.node? free.index = some node := by
  rw [h.activation.graph, h.index, hnode]

/-- The path goes on along an edge, with grams that may be compared in another way. -/
theorem goTo {grams' : Gram → Gram → Prop} (h : free.Freer grams bound) {dest : Nat}
    (hedge : bound.activation.graph.Edge bound.index dest) {gram gram' : Gram}
    (hgram : grams' gram gram') :
    Walk.Freer grams' { free with index := dest, gram := gram }
      { bound with index := dest, gram := gram' } :=
  ⟨rfl, h.activation.step hedge, h.callers, h.budget, hgram⟩

/-- A program point that can be entered can be entered by a path that is held back less. -/
theorem enter (h : free.Freer grams bound) {entered : Walk}
    (henter : search.enter? bound = some entered) :
    ∃ entered', search.enter? free = some entered' ∧ entered'.Freer grams entered := by
  have hpoint : free.activation.graph.isMergePoint free.index =
      bound.activation.graph.isMergePoint bound.index := by
    rw [h.activation.graph, h.index]
  have htoll : search.toll free = search.toll bound := by
    rw [Search.toll, Search.toll, h.isEmpty_eq]
  rcases Search.enter?_eq_some_iff.mp henter with ⟨hnot, rfl⟩ | ⟨hmerge, hmark, hpay, rfl⟩
  · exact ⟨free, Search.enter?_eq_some_iff.mpr (.inl ⟨hpoint.trans hnot, rfl⟩), h⟩
  · have hmark' : free.index ∉ free.activation.marks := by
      rw [h.index]
      exact fun hmem => hmark (h.activation.marks _ hmem .refl)
    refine ⟨search.marked free, Search.enter?_eq_some_iff.mpr (.inr ⟨hpoint.trans hmerge, hmark',
      ?_, rfl⟩), h.index, ⟨h.activation.method, h.activation.graph, ?_⟩, h.callers, ?_, h.gram⟩
    · rw [htoll]
      exact hpay.trans h.budget
    · intro mark hmem hahead
      rcases List.mem_cons.mp hmem with rfl | hmem
      · rw [h.index]
        exact List.mem_cons_self
      · exact List.mem_cons_of_mem _ (h.activation.marks mark hmem hahead)
    · rw [Search.marked, Search.marked, htoll]
      exact Nat.sub_le_sub_right h.budget _

/-! ## Doing the same with less to hold back -/

/-- Behind the caller the path that is held back less goes on in the same ways. -/
theorem returns (h : free.Freer grams bound) {walks : List Walk} {walk : Walk}
    (hreturns : search.returns bound = .ok walks) (hwalk : walk ∈ walks) :
    ∃ walks', search.returns free = .ok walks' ∧ ∃ walk' ∈ walks', walk'.Freer grams walk := by
  rw [Search.returns] at hreturns ⊢
  split at hreturns
  · obtain rfl := Except.ok.inj hreturns
    cases hwalk
  case isFalse hreturning =>
    rw [if_neg hreturning]
    split at hreturns
    · obtain rfl := Except.ok.inj hreturns
      cases hwalk
    case h_2 caller callers hcallers =>
      obtain ⟨behind, hbehind, rfl⟩ := exists_of_map_eq_ok hreturns
      obtain rfl := List.mem_singleton.mp hwalk
      have hall := h.callers
      rw [hcallers] at hall
      obtain ⟨caller', callers', hcaller, hrest, hcallers'⟩ := List.forall₂_cons_right_iff.mp hall
      rw [Search.continueIn] at hbehind
      split at hbehind
      · cases hbehind
      case h_2 site hsite =>
        split at hbehind
        · cases hbehind
        case h_2 dest hdest =>
          obtain rfl := Except.ok.inj hbehind
          have hsite' : caller'.activation.graph.node? caller'.site = some site := by
            rw [hcaller.activation.graph, hcaller.site, hsite]
          simp only [hcallers', Search.continueIn, hsite', hdest]
          refine ⟨_, rfl, _, List.mem_singleton_self _, rfl, ?_, hrest, h.budget, h.gram⟩
          exact hcaller.activation.step (hcaller.behind hsite hdest)

/-- It can take the same choices at a branch. -/
theorem choices (horder : search.GramOrder grams) (h : free.Freer grams bound)
    (hnode : bound.activation.graph.node? bound.index = some node) {targets : List Nat}
    (hc : node.command = .branch targets) {walks : List Walk} {walk : Walk}
    (hchoices : search.choices bound targets node.next = .ok walks) (hwalk : walk ∈ walks) :
    ∃ walks', search.choices free targets node.next = .ok walks' ∧
      ∃ walk' ∈ walks', walk'.Freer grams walk := by
  obtain ⟨straight, hstraight, hchoices⟩ := exists_of_bind_eq_ok hchoices
  obtain ⟨dest, hnext, rfl⟩ := Search.goTo_eq_ok hstraight
  obtain rfl := Except.ok.inj hchoices
  rw [hnext]
  refine ⟨_, rfl, ?_⟩
  rcases List.mem_cons.mp hwalk with rfl | hwalk
  · exact ⟨_, List.mem_cons_self, h.goTo ⟨_, MethodGraph.step_decline hnode hc hnext⟩ h.gram⟩
  · split at hwalk
    · cases hwalk
    case isFalse hbranch =>
      obtain ⟨target, htarget, rfl⟩ := List.mem_map.mp hwalk
      rw [if_neg hbranch]
      refine ⟨_, List.mem_cons_of_mem _ (List.mem_map_of_mem htarget), ?_⟩
      exact h.goTo ⟨_, MethodGraph.step_choose hnode hc (List.mem_reverse.mp htarget)⟩
        (horder.keepLast h.gram)

/-- It can enter the same callees. -/
theorem callees (horder : search.GramOrder grams) (h : free.Freer grams bound)
    (hnode : bound.activation.graph.node? bound.index = some node) {target : CallTarget}
    (hc : node.command = .call target) {walk : Walk}
    (hwalk : walk ∈ search.callees bound target) :
    ∃ walk' ∈ search.callees free target, walk'.Freer grams walk := by
  rw [Search.callees] at hwalk
  split at hwalk
  · cases hwalk
  case isFalse hnot =>
    simp only [Bool.or_eq_true, beq_iff_eq, Bool.not_eq_true', not_or] at hnot
    obtain ⟨⟨⟨hcount, hbudget⟩, hdug⟩, hrunning⟩ := hnot
    have hdug' : search.isDug target free.gram = true := by
      simp only [Search.isDug, Bool.not_eq_false, Bool.and_eq_true] at hdug ⊢
      exact ⟨hdug.1, horder.recentlyFree h.gram hdug.2⟩
    have hbudget' : free.budget ≠ 0 := by
      have hle := h.budget
      omega
    rw [Search.callees, if_neg]
    · obtain ⟨owner, howner, hget⟩ := List.mem_filterMap.mp hwalk
      obtain ⟨graph, hgraph, rfl⟩ := Option.map_eq_some_iff.mp hget
      refine ⟨_, List.mem_filterMap.mpr ⟨owner, howner, Option.map_eq_some_iff.mpr
        ⟨graph, hgraph, rfl⟩⟩, rfl, ⟨rfl, rfl, fun _ hmark => absurd hmark List.not_mem_nil⟩,
        .cons ⟨h.index, h.activation, ?_⟩ h.callers, Nat.sub_le_sub_right h.budget 1,
        horder.keepLast h.gram⟩
      intro site dest hsite hdest
      obtain rfl := Option.some.inj (hnode.symm.trans hsite)
      exact ⟨_, MethodGraph.step_call hnode hc hdest⟩
    · simp [horder.count_ne h.gram hcount, hbudget', hdug', h.isRunning_eq, hrunning]

/-- A path that is held back less goes on in every way that the other one does. -/
theorem expand (horder : search.GramOrder grams) (h : free.Freer grams bound) {tasks : List Task}
    (hexpand : search.expand bound = .ok tasks) {task : Task} (htask : task ∈ tasks) :
    ∃ tasks', search.expand free = .ok tasks' ∧ ∃ task' ∈ tasks', task'.Freer grams task := by
  rw [Search.expand] at hexpand
  split at hexpand
  · cases hexpand
  case h_2 node hnode =>
    split at hexpand
    · obtain rfl := Except.ok.inj hexpand
      cases htask
    case h_2 entered henter =>
      obtain ⟨entered', henter', hentered⟩ := h.enter henter
      have hsame := Search.entered_of_enter? henter
      have hat : entered.activation.graph.node? entered.index = some node := by
        rw [hsame.graph, hsame.index, hnode]
      simp only [Search.expand, h.node? hnode, henter']
      split at hexpand
      case h_1 hc =>
        obtain ⟨walks, hwalks, rfl⟩ := exists_of_map_eq_ok hexpand
        obtain ⟨walk, hwalk, rfl⟩ := List.mem_map.mp htask
        obtain ⟨walks', hwalks', walk', hwalk', hfree⟩ := hentered.returns hwalks hwalk
        rw [hwalks']
        exact ⟨_, rfl, _, List.mem_map_of_mem hwalk', .arrive hfree⟩
      case h_2 =>
        obtain rfl := Except.ok.inj hexpand
        cases htask
      case h_3 dest hc =>
        obtain rfl := Except.ok.inj hexpand
        obtain rfl := List.mem_singleton.mp htask
        exact ⟨_, rfl, _, List.mem_singleton_self _, .arrive
          (hentered.goTo ⟨_, MethodGraph.step_jump hat hc⟩ hentered.gram)⟩
      case h_4 targets hc =>
        obtain ⟨walks, hwalks, rfl⟩ := exists_of_map_eq_ok hexpand
        obtain ⟨walk, hwalk, rfl⟩ := List.mem_map.mp htask
        obtain ⟨walks', hwalks', walk', hwalk', hfree⟩ :=
          hentered.choices horder hat hc hwalks hwalk
        rw [hwalks']
        exact ⟨_, rfl, _, List.mem_map_of_mem hwalk', .arrive hfree⟩
      case h_5 target hc =>
        obtain rfl := Except.ok.inj hexpand
        refine ⟨_, rfl, ?_⟩
        rcases List.mem_append.mp htask with htask | htask
        · obtain ⟨walk, hwalk, rfl⟩ := List.mem_map.mp htask
          obtain ⟨walk', hwalk', hfree⟩ := hentered.callees horder hat hc hwalk
          exact ⟨_, List.mem_append_left _ (List.mem_map_of_mem hwalk'), .arrive hfree⟩
        · obtain rfl := List.mem_singleton.mp htask
          exact ⟨_, List.mem_append_right _ (List.mem_singleton_self _), .emit hentered hat hc⟩

end Walk.Freer

end CallNgrams
