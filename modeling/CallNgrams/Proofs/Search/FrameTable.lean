import CallNgrams.Search.Numbered
import CallNgrams.Proofs.Search.Provenance

/-!
# Numbered frames

In a frame table that grows from the empty one by interning, the map from frames to numbers is
inverse to the list of frames, callers come before the frames that they call, and a depth counts the
callers. So the callers of a numbered frame can be followed to the end, and numbers are as good as
whole call stacks: different numbers stand for different ones.
-/

namespace CallNgrams

instance : Std.TransOrd NumberedFrame :=
  inferInstanceAs (Std.TransCmp (compareLex (compareOn NumberedFrame.point)
    (compareLex (compareOn NumberedFrame.caller) (compareOn NumberedFrame.depth))))

instance : Std.LawfulEqOrd NumberedFrame :=
  lawfulEqCmp_compareLex <| by
    rintro ⟨point, caller, depth⟩ ⟨point', caller', depth'⟩ hpoint hrest
    obtain ⟨hcaller, hdepth⟩ := compareLex_eq_eq.mp hrest
    obtain rfl : point = point' := eq_of_compareOn hpoint
    obtain rfl : caller = caller' := eq_of_compareOn hcaller
    obtain rfl : depth = depth' := eq_of_compareOn hdepth
    rfl

/-- Where a frame is and how deep. -/
def Frame.place (frame : Frame) : FramePlace :=
  ⟨frame.point, frame.depth⟩

namespace FrameTable

variable {table : FrameTable} {frame frame' : NumberedFrame} {id id' : Nat} {caller : Option Nat}

/-- A table that grows from the empty one by interning frames whose callers it already holds. -/
inductive Built : FrameTable → Prop where
  | empty : Built .empty
  | intern {table : FrameTable} {caller : Option Nat} (point : ProgramPoint) :
      Built table → (∀ id ∈ caller, id < table.frames.size) → Built (table.intern caller point).2

/-- Callers come before the frames that they call, depths count them, and the map from frames to
numbers is inverse to the list of frames. -/
structure Consed (table : FrameTable) : Prop where
  older {id id' : Nat} {frame : NumberedFrame} :
    table.get? id = some frame → frame.caller = some id' → id' < id
  depth {id : Nat} {frame : NumberedFrame} :
    table.get? id = some frame → frame.depth = table.depthBelow frame.caller
  interned (frame : NumberedFrame) (id : Nat) :
    table.interned[frame]? = some id ↔ table.get? id = some frame

theorem lt_size_of_get? (h : table.get? id = some frame) : id < table.frames.size :=
  (Array.getElem?_eq_some_iff.mp h).1

theorem exists_get? (h : id < table.frames.size) : ∃ frame, table.get? id = some frame :=
  ⟨_, Array.getElem?_eq_getElem h⟩

theorem consed_empty : Consed .empty := by
  have hnone (id : Nat) : get? .empty id = none := rfl
  refine ⟨fun h => ?_, fun h => ?_, fun frame id => ?_⟩
  · simp [hnone] at h
  · simp [hnone] at h
  · rw [hnone, FrameTable.empty]
    simp

/-- No frame occurs twice. -/
theorem Consed.unique (h : table.Consed) (hget : table.get? id = some frame)
    (hget' : table.get? id' = some frame) : id = id' := by
  rw [← h.interned] at hget hget'
  exact Option.some.inj (hget.symm.trans hget')

/-! ## Interning -/

/-- A pushed frame gets the next number. -/
theorem get?_push :
    (table.push frame).get? id = if id = table.frames.size then some frame else table.get? id :=
  Array.getElem?_push

theorem get?_push_of_lt (h : id < table.frames.size) :
    (table.push frame).get? id = table.get? id := by
  rw [get?_push, if_neg (Nat.ne_of_lt h)]

/-- A further frame does not change how deep the callees of the others are. -/
theorem depthBelow_push (h : ∀ id ∈ caller, id < table.frames.size) :
    (table.push frame).depthBelow caller = table.depthBelow caller := by
  cases caller with
  | none => rfl
  | some id => simp only [depthBelow, Option.bind_some, get?_push_of_lt (h id rfl)]

/-- A table stays well formed if a new frame is pushed whose caller it holds. -/
theorem Consed.push (h : table.Consed) (hcaller : ∀ id ∈ frame.caller, id < table.frames.size)
    (hdepth : frame.depth = table.depthBelow frame.caller)
    (hnew : ∀ id, table.get? id ≠ some frame) : (table.push frame).Consed := by
  -- a frame of the longer table is the new one or an old one with its old number
  have hcases {id : Nat} {other : NumberedFrame} (hget : (table.push frame).get? id = some other) :
      id = table.frames.size ∧ other = frame ∨ table.get? id = some other := by
    rw [get?_push] at hget
    split at hget
    case isTrue hid => exact .inl ⟨hid, (Option.some.inj hget).symm⟩
    case isFalse => exact .inr hget
  refine ⟨fun hget hid => ?_, fun hget => ?_, fun other id => ?_⟩
  · rcases hcases hget with ⟨rfl, rfl⟩ | hold
    · exact hcaller _ hid
    · exact h.older hold hid
  · rcases hcases hget with ⟨-, rfl⟩ | hold
    · rw [depthBelow_push hcaller, hdepth]
    · rw [depthBelow_push fun id hid => (h.older hold hid).trans (lt_size_of_get? hold),
        h.depth hold]
  · rw [get?_push, FrameTable.push, Std.TreeMap.getElem?_insert]
    by_cases hother : frame = other
    · subst other
      have hold : table.get? id ≠ some frame := hnew id
      simp only [Std.compare_self, if_true, Option.some.injEq]
      split
      case isTrue hid => simp [hid]
      case isFalse hid => simp [Ne.symm hid, hold]
    · rw [if_neg (by rwa [Std.LawfulEqOrd.compare_eq_iff_eq]), h.interned]
      split
      case isTrue hid =>
        have hold : table.get? id ≠ some other :=
          fun hget => Nat.ne_of_lt (lt_size_of_get? hget) hid
        simp [hother, hold]
      case isFalse => rfl

/-- Interning returns the number of the frame if the table has it, and else adds the frame. -/
theorem Consed.intern_cases (h : table.Consed) (caller : Option Nat) (point : ProgramPoint) :
    (∃ id, table.get? id = some ⟨point, caller, table.depthBelow caller⟩ ∧
        table.intern caller point = (id, table)) ∨
      (∀ id, table.get? id ≠ some ⟨point, caller, table.depthBelow caller⟩) ∧
        table.intern caller point =
          (table.frames.size, table.push ⟨point, caller, table.depthBelow caller⟩) := by
  simp only [intern]
  split
  case h_1 id hid => exact .inl ⟨id, (h.interned _ id).mp hid, rfl⟩
  case h_2 hnone =>
    refine .inr ⟨fun id hget => ?_, rfl⟩
    rw [(h.interned _ id).mpr hget] at hnone
    cases hnone

/-- Every table that is built is well formed. -/
theorem Built.consed (h : table.Built) : table.Consed := by
  induction h with
  | empty => exact consed_empty
  | @intern table caller point _ hcaller ih =>
    rcases ih.intern_cases caller point with ⟨id, -, heq⟩ | ⟨hnew, heq⟩
    · rwa [heq]
    · rw [heq]
      exact ih.push hcaller rfl hnew

/-! ## Call stacks -/

/-- The chain of a frame is the frame and the chain of its caller. -/
theorem chainUpTo_succ (hget : table.get? id = some frame) (bound : Nat) :
    table.chainUpTo (bound + 1) id = frame :: frame.caller.elim [] (table.chainUpTo bound) := by
  simp only [chainUpTo, hget]
  cases frame.caller <;> rfl

namespace Consed

/-- A bound beyond the number of a frame does not cut its chain. -/
theorem chainUpTo_eq (h : table.Consed) {bound bound' : Nat} (hbound : id < bound)
    (hbound' : id < bound') : table.chainUpTo bound id = table.chainUpTo bound' id := by
  induction bound generalizing id bound' with
  | zero => cases hbound
  | succ bound ih =>
    obtain ⟨bound', rfl⟩ := Nat.exists_eq_add_one.mpr (Nat.zero_lt_of_lt hbound')
    cases hget : table.get? id with
    | none => simp only [chainUpTo, hget]
    | some frame =>
      rw [chainUpTo_succ hget, chainUpTo_succ hget]
      cases hcaller : frame.caller with
      | none => rfl
      | some caller =>
        have hlt := h.older hget hcaller
        have hsame : table.chainUpTo bound caller = table.chainUpTo bound' caller :=
          ih (by omega) (by omega)
        rw [Option.elim_some, Option.elim_some, hsame]

/-- A chain is a frame and the chain of its caller. -/
theorem chain_eq (h : table.Consed) (hget : table.get? id = some frame) :
    table.chain id = frame :: frame.caller.elim [] table.chain := by
  have hlt := lt_size_of_get? hget
  have hlonger : table.chain id = table.chainUpTo (table.frames.size + 1) id :=
    h.chainUpTo_eq hlt (by omega)
  rw [hlonger, chainUpTo_succ hget]
  rfl

/-- A frame is in its own chain. -/
theorem chain_ne_nil (h : table.Consed) (hid : id < table.frames.size) : table.chain id ≠ [] := by
  obtain ⟨frame, hget⟩ := exists_get? hid
  rw [h.chain_eq hget]
  exact List.cons_ne_nil _ _

/-- A depth is the number of callers. -/
theorem length_chain (h : table.Consed) (hget : table.get? id = some frame) :
    (table.chain id).length = frame.depth + 1 := by
  induction id using Nat.strongRecOn generalizing frame with
  | ind id ih =>
    rw [h.chain_eq hget, h.depth hget, List.length_cons]
    cases hcaller : frame.caller with
    | none => rfl
    | some caller =>
      have hlt := h.older hget hcaller
      obtain ⟨outer, houter⟩ := exists_get? (hlt.trans (lt_size_of_get? hget))
      simp only [Option.elim_some, ih caller hlt houter, depthBelow, Option.bind_some, houter]

/-- Frames on equal call stacks have the same number. -/
theorem eq_of_chain (h : table.Consed) (hid : id < table.frames.size)
    (hid' : id' < table.frames.size)
    (heq : (table.chain id).map NumberedFrame.point = (table.chain id').map NumberedFrame.point) :
    id = id' := by
  induction id using Nat.strongRecOn generalizing id' with
  | ind id ih =>
    obtain ⟨frame, hget⟩ := exists_get? hid
    obtain ⟨frame', hget'⟩ := exists_get? hid'
    have hlength := congrArg List.length heq
    rw [List.length_map, List.length_map, h.length_chain hget, h.length_chain hget'] at hlength
    rw [h.chain_eq hget, h.chain_eq hget', List.map_cons, List.map_cons] at heq
    obtain ⟨hpoint, hrest⟩ := List.cons.inj heq
    have hcaller : frame.caller = frame'.caller := by
      cases hc : frame.caller with
      | none =>
        cases hc' : frame'.caller with
        | none => rfl
        | some caller' =>
          have hne := h.chain_ne_nil ((h.older hget' hc').trans hid')
          simp [hc, hc', hne] at hrest
      | some caller =>
        have hlt := h.older hget hc
        cases hc' : frame'.caller with
        | none =>
          have hne := h.chain_ne_nil (hlt.trans hid)
          simp [hc, hc', hne] at hrest
        | some caller' =>
          rw [hc, hc', Option.elim_some, Option.elim_some] at hrest
          rw [ih caller hlt (hlt.trans hid) ((h.older hget' hc').trans hid') hrest]
    -- equal frames: point, caller and depth agree
    obtain ⟨point, caller, depth⟩ := frame
    obtain ⟨point', caller', depth'⟩ := frame'
    obtain rfl : point = point' := hpoint
    obtain rfl : caller = caller' := hcaller
    obtain rfl : depth = depth' := Nat.succ.inj hlength
    exact h.unique hget hget'

end Consed

/-- The frame behind a number. -/
def frameAt (table : FrameTable) (id : Fin table.frames.size) : Frame :=
  ⟨table.frames[id].point, (table.chain id).tail.map NumberedFrame.point⟩

theorem get?_fin (id : Fin table.frames.size) : table.get? id = some table.frames[id] :=
  Array.getElem?_eq_getElem id.isLt

namespace Consed

/-- The program points of a chain are those of the call stack. -/
theorem map_point_chain (h : table.Consed) (id : Fin table.frames.size) :
    (table.chain id).map NumberedFrame.point =
      (table.frameAt id).point :: (table.frameAt id).callers := by
  simp only [frameAt, h.chain_eq (get?_fin id), List.map_cons, List.tail_cons]

/-- A number has a frame if its chain is at the program points of it. -/
theorem frameAt_eq_iff (h : table.Consed) {id : Fin table.frames.size} {frame : Frame} :
    table.frameAt id = frame ↔
      (table.chain id).map NumberedFrame.point = frame.point :: frame.callers := by
  obtain ⟨point, callers⟩ := frame
  rw [h.map_point_chain]
  cases table.frameAt id
  simp

/-- Different numbers stand for different frames. -/
theorem frameAt_inj (h : table.Consed) {id id' : Fin table.frames.size}
    (heq : table.frameAt id = table.frameAt id') : id = id' := by
  apply Fin.ext
  apply h.eq_of_chain id.isLt id'.isLt
  rw [h.frameAt_eq_iff.mp heq, h.map_point_chain]

/-- The depth that the table keeps is the number of callers. -/
theorem depth_frameAt (h : table.Consed) (id : Fin table.frames.size) :
    (table.frameAt id).depth = table.frames[id].depth := by
  have hlength := h.length_chain (get?_fin id)
  rw [Frame.depth, frameAt, List.length_map, List.length_tail, hlength, Nat.add_sub_cancel]

/-- The frames of a chain have the program points and depths of the call stack. -/
theorem places_chain (h : table.Consed) (id : Fin table.frames.size) :
    (table.chain id).map NumberedFrame.place = (table.frameAt id).stack.map Frame.place := by
  obtain ⟨id, hid⟩ := id
  induction id using Nat.strongRecOn with
  | ind id ih =>
    have hdepth := h.depth_frameAt ⟨id, hid⟩
    have hchain := h.chain_eq (get?_fin ⟨id, hid⟩)
    cases hcaller : (table.frames[(⟨id, hid⟩ : Fin _)]).caller with
    | none =>
      rw [hcaller, Option.elim_none] at hchain
      have hframe : table.frameAt ⟨id, hid⟩ = ⟨table.frames[(⟨id, hid⟩ : Fin _)].point, []⟩ := by
        rw [frameAt, hchain]
        rfl
      rw [hchain, List.map_singleton, NumberedFrame.place, ← hdepth, hframe]
      rfl
    | some caller =>
      have hlt := h.older (get?_fin ⟨id, hid⟩) hcaller
      have hframe : table.frameAt ⟨id, hid⟩ = ⟨table.frames[(⟨id, hid⟩ : Fin _)].point,
          (table.frameAt ⟨caller, hlt.trans hid⟩).point ::
            (table.frameAt ⟨caller, hlt.trans hid⟩).callers⟩ := by
        rw [← h.map_point_chain, frameAt, hchain, hcaller]
        rfl
      rw [hcaller, Option.elim_some] at hchain
      rw [hchain, List.map_cons, ih caller hlt (hlt.trans hid), NumberedFrame.place, ← hdepth,
        hframe]
      rfl

end Consed

/-! ## Growing tables -/

/-- A table keeps the numbers of another one. -/
def Extends (table table' : FrameTable) : Prop :=
  ∀ id frame, table.get? id = some frame → table'.get? id = some frame

/-- Interning keeps all numbers and returns that of the frame. -/
theorem Consed.intern_spec (h : table.Consed) (caller : Option Nat) (point : ProgramPoint) :
    Extends table (table.intern caller point).2 ∧
      (table.intern caller point).2.get? (table.intern caller point).1 =
        some ⟨point, caller, table.depthBelow caller⟩ := by
  rcases h.intern_cases caller point with ⟨id, hget, heq⟩ | ⟨-, heq⟩
  · rw [heq]
    exact ⟨fun _ _ hold => hold, hget⟩
  · rw [heq]
    refine ⟨fun id frame hold => ?_, Array.getElem?_push_size⟩
    exact (get?_push_of_lt (lt_size_of_get? hold)).trans hold

/-- A table has a number for a frame. -/
def Numbers (table : FrameTable) (frame : Frame) : Prop :=
  ∃ id : Fin table.frames.size, table.frameAt id = frame

namespace Extends

variable {table' : FrameTable}

theorem refl (table : FrameTable) : Extends table table :=
  fun _ _ hget => hget

theorem trans {table'' : FrameTable} (h : Extends table table') (h' : Extends table' table'') :
    Extends table table'' :=
  fun id frame hget => h' id frame (h id frame hget)

/-- A number stands for the same call stack in a table that has grown. -/
theorem chain_eq (hext : Extends table table') (h : table.Consed) (h' : table'.Consed)
    (hid : id < table.frames.size) : table'.chain id = table.chain id := by
  induction id using Nat.strongRecOn with
  | ind id ih =>
    obtain ⟨frame, hget⟩ := exists_get? hid
    rw [h.chain_eq hget, h'.chain_eq (hext id frame hget)]
    cases hcaller : frame.caller with
    | none => rfl
    | some caller =>
      have hlt := h.older hget hcaller
      rw [Option.elim_some, Option.elim_some, ih caller hlt (hlt.trans hid)]

/-- A frame that has a number keeps one. -/
theorem numbers (hext : Extends table table') (h : table.Consed) (h' : table'.Consed)
    {frame : Frame} (hframe : table.Numbers frame) : table'.Numbers frame := by
  obtain ⟨id, hid⟩ := hframe
  have hlt := lt_size_of_get? (hext id _ (get?_fin id))
  refine ⟨⟨id, hlt⟩, h'.frameAt_eq_iff.mpr ?_⟩
  rw [hext.chain_eq h h' id.isLt]
  exact h.frameAt_eq_iff.mp hid

end Extends

/-- The number that interning returns stands for the point on the call stack of the caller. -/
theorem Built.map_point_chain_intern (h : table.Built) (point : ProgramPoint)
    (hcaller : ∀ id ∈ caller, id < table.frames.size) :
    ((table.intern caller point).2.chain (table.intern caller point).1).map NumberedFrame.point =
      point :: caller.elim [] fun id => (table.chain id).map NumberedFrame.point := by
  have hconsed := (Built.intern point h hcaller).consed
  obtain ⟨hext, hget⟩ := h.consed.intern_spec caller point
  rw [hconsed.chain_eq hget]
  cases caller with
  | none => rfl
  | some id =>
    rw [Option.elim_some, Option.elim_some, List.map_cons,
      hext.chain_eq h.consed hconsed (hcaller id rfl)]

/-- A table can grow by the number of a frame, after those of its callers. -/
theorem Built.exists_numbers (h : table.Built) (point : ProgramPoint)
    (callers : List ProgramPoint) :
    ∃ table' : FrameTable, table'.Built ∧ Extends table table' ∧
      table'.Numbers ⟨point, callers⟩ := by
  induction callers generalizing point with
  | nil =>
    have hbuilt : (table.intern none point).2.Built := .intern point h (by simp)
    obtain ⟨hext, hget⟩ := h.consed.intern_spec none point
    refine ⟨_, hbuilt, hext, ⟨_, lt_size_of_get? hget⟩, hbuilt.consed.frameAt_eq_iff.mpr ?_⟩
    exact h.map_point_chain_intern point (by simp)
  | cons caller callers ih =>
    obtain ⟨outer, houter, hbefore, id, hid⟩ := ih caller
    have hbuilt : (outer.intern (some id) point).2.Built := .intern point houter (by simp)
    obtain ⟨hext, hget⟩ := houter.consed.intern_spec (some id) point
    refine ⟨_, hbuilt, hbefore.trans hext, ⟨_, lt_size_of_get? hget⟩,
      hbuilt.consed.frameAt_eq_iff.mpr ?_⟩
    rw [houter.map_point_chain_intern point (by simp), Option.elim_some,
      houter.consed.frameAt_eq_iff.mp hid]

/-- Some table has a number for each of the given frames. -/
theorem exists_built_numbers (frames : List Frame) :
    ∃ table : FrameTable, table.Built ∧ ∀ frame ∈ frames, table.Numbers frame := by
  induction frames with
  | nil => exact ⟨.empty, .empty, by simp⟩
  | cons frame frames ih =>
    obtain ⟨table, hbuilt, hframes⟩ := ih
    obtain ⟨table', hbuilt', hext, hframe⟩ := hbuilt.exists_numbers frame.point frame.callers
    refine ⟨table', hbuilt', fun other hother => ?_⟩
    rcases List.mem_cons.mp hother with rfl | hother
    · exact hframe
    · exact hext.numbers hbuilt.consed hbuilt'.consed (hframes other hother)

end FrameTable

end CallNgrams
