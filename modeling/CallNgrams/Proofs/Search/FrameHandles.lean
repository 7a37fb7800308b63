import CallNgrams.Proofs.Search.FrameTable

/-!
# Numbers of frames as handles

Whatever is done with a frame table that is empty at first, as long as only numbers are used that it
has returned, a number stands for the same call stack forever, different numbers stand for different
call stacks, and a call stack has as many callers as its frame is deep. Moving a frame to another
index is the same as interning it there.
-/

namespace CallNgrams.FrameTable

variable {table : FrameTable} {frame : NumberedFrame} {id : Nat}

/-- The frames from a numbered one to the caller of all. -/
inductive Unwinds (table : FrameTable) : Nat → List NumberedFrame → Prop where
  | root {id : Nat} {frame : NumberedFrame} :
      table.get? id = some frame → frame.caller = none → Unwinds table id [frame]
  | call {id caller : Nat} {frame : NumberedFrame} {outer : List NumberedFrame} :
      table.get? id = some frame → frame.caller = some caller → Unwinds table caller outer →
      Unwinds table id (frame :: outer)

/-- A number unwinds to its chain. -/
theorem Consed.unwinds (h : table.Consed) (hid : id < table.frames.size) :
    table.Unwinds id (table.chain id) := by
  induction id using Nat.strongRecOn with
  | ind id ih =>
    obtain ⟨frame, hget⟩ := exists_get? hid
    rw [h.chain_eq hget]
    cases hcaller : frame.caller with
    | none => exact .root hget hcaller
    | some caller =>
      have hlt := h.older hget hcaller
      exact .call hget hcaller (ih caller hlt (hlt.trans hid))

/-- Interning a frame that the table holds returns its number and leaves the table as it is. -/
theorem Consed.intern_of_get? (h : table.Consed) (hget : table.get? id = some frame) :
    table.intern frame.caller frame.point = (id, table) := by
  have hframe : (⟨frame.point, frame.caller, table.depthBelow frame.caller⟩ : NumberedFrame) =
      frame := by
    rw [← h.depth hget]
  have hcases := h.intern_cases frame.caller frame.point
  rw [hframe] at hcases
  obtain ⟨id', hget', heq⟩ | ⟨hnew, -⟩ := hcases
  · rw [heq, h.unique hget' hget]
  · exact absurd hget (hnew id)

/-- Moving a frame to another index is interning it there. -/
theorem Consed.withIndex_eq (h : table.Consed) (hget : table.get? id = some frame) (index : Nat) :
    table.withIndex id index = table.intern frame.caller ⟨frame.point.method, index⟩ := by
  simp only [withIndex, hget]
  split
  case isTrue hindex =>
    subst hindex
    exact (h.intern_of_get? hget).symm
  case isFalse => rfl

/-! ## Sequences of operations -/

/-- What can be done with a frame table. -/
inductive Operation where
  | intern (caller : Option Nat) (point : ProgramPoint)
  | withIndex (id index : Nat)

/-- The number that an operation returns and the table that it leaves. -/
def perform (table : FrameTable) : Operation → Nat × FrameTable
  | .intern caller point => table.intern caller point
  | .withIndex id index => table.withIndex id index

/-- The numbers that an operation is given. -/
def Operation.uses : Operation → List Nat
  | .intern caller _ => caller.toList
  | .withIndex id _ => [id]

/-- A frame table and the numbers that it has returned, the last one first. -/
structure Session where
  table : FrameTable
  issued : List Nat

namespace Session

variable {session : Session} {operation : Operation} {operations : List Operation}

/-- An empty table, which has returned nothing. -/
def start : Session :=
  ⟨.empty, []⟩

/-- Performs an operation and notes the number that it returns. -/
def perform (session : Session) (operation : Operation) : Session where
  table := (session.table.perform operation).2
  issued := (session.table.perform operation).1 :: session.issued

/-- Performs one operation after the other. -/
def run (session : Session) (operations : List Operation) : Session :=
  operations.foldl perform session

/-- Every operation is given only numbers that were returned before. -/
def Admits (session : Session) : List Operation → Prop
  | [] => True
  | operation :: operations =>
    (∀ id ∈ operation.uses, id ∈ session.issued) ∧ (session.perform operation).Admits operations

instance decidableAdmits (session : Session) :
    (operations : List Operation) → Decidable (session.Admits operations)
  | [] => inferInstanceAs (Decidable True)
  | operation :: operations =>
    have := decidableAdmits (session.perform operation) operations
    inferInstanceAs (Decidable (_ ∧ _))

/-- The table has grown from the empty one, and it has a frame for every number that it returned. -/
structure Valid (session : Session) : Prop where
  built : session.table.Built
  issued : ∀ id ∈ session.issued, id < session.table.frames.size

theorem valid_start : start.Valid :=
  ⟨.empty, by simp [start]⟩

/-- Interning a frame keeps a session valid and all its numbers. -/
theorem Valid.intern (h : session.Valid) {caller : Option Nat} {point : ProgramPoint}
    (hcaller : ∀ id ∈ caller, id < session.table.frames.size)
    (hperform : session.table.perform operation = session.table.intern caller point) :
    (session.perform operation).Valid ∧
      Extends session.table (session.perform operation).table := by
  obtain ⟨hextends, hget⟩ := h.built.consed.intern_spec caller point
  rw [← hperform] at hextends hget
  refine ⟨⟨?_, fun id hid => ?_⟩, hextends⟩
  · rw [perform, hperform]
    exact .intern point h.built hcaller
  · rcases List.mem_cons.mp hid with rfl | hid
    · exact lt_size_of_get? hget
    · obtain ⟨frame, hold⟩ := exists_get? (h.issued id hid)
      exact lt_size_of_get? (hextends id frame hold)

/-- An operation that is given returned numbers interns a frame whose caller the table holds, and
keeps all frames. -/
theorem Valid.perform (h : session.Valid) (huses : ∀ id ∈ operation.uses, id ∈ session.issued) :
    (session.perform operation).Valid ∧
      Extends session.table (session.perform operation).table := by
  have hlt : ∀ id ∈ operation.uses, id < session.table.frames.size :=
    fun id hid => h.issued id (huses id hid)
  cases operation with
  | intern caller point => exact h.intern (fun id hid => hlt id (Option.mem_toList.mpr hid)) rfl
  | withIndex id index =>
    have hid : id < session.table.frames.size := hlt id (List.mem_singleton.mpr rfl)
    obtain ⟨frame, hget⟩ := exists_get? hid
    have hcaller : ∀ outer ∈ frame.caller, outer < session.table.frames.size :=
      fun outer houter => (h.built.consed.older hget houter).trans hid
    exact h.intern hcaller (h.built.consed.withIndex_eq hget index)

/-- So does every sequence of operations that the session admits. -/
theorem Valid.run (h : session.Valid) (hadmits : session.Admits operations) :
    (session.run operations).Valid ∧ Extends session.table (session.run operations).table := by
  induction operations generalizing session with
  | nil => exact ⟨h, .refl _⟩
  | cons operation operations ih =>
    obtain ⟨hvalid, hextends⟩ := h.perform hadmits.1
    obtain ⟨hrun, hlater⟩ := ih hvalid hadmits.2
    exact ⟨hrun, hextends.trans hlater⟩

end Session

/-- After any sequence of operations that are given only returned numbers, the map from frames to
numbers is inverse to the list of frames, and interning a frame returns a number that stands for it,
on the call stack of its caller. A number that was returned stands for
the same frame and the same call stack after all further operations; its callers can be followed to
the end, and there are as many of them as its frame is deep; and moving its frame to another index
returns the number, and leaves the table, that interning the frame there does. Two such numbers are
equal exactly if their call stacks are. -/
theorem handles_canonical {operations : List Operation} {session : Session}
    (hadmits : Session.start.Admits operations) (hrun : Session.start.run operations = session) :
    (∀ frame id, session.table.interned[frame]? = some id ↔
      session.table.get? id = some frame) ∧
    (∀ caller point, (∀ id ∈ caller, id ∈ session.issued) →
      ((session.table.intern caller point).2.chain (session.table.intern caller point).1).map
        NumberedFrame.point =
          point :: caller.elim [] fun id => (session.table.chain id).map NumberedFrame.point) ∧
    (∀ id ∈ session.issued, ∃ frame, session.table.get? id = some frame ∧
      (∀ later, session.Admits later → (session.run later).table.get? id = some frame ∧
        (session.run later).table.chain id = session.table.chain id) ∧
      session.table.Unwinds id (session.table.chain id) ∧
      (session.table.chain id).length = frame.depth + 1 ∧
      ∀ index, session.table.withIndex id index =
        session.table.intern frame.caller ⟨frame.point.method, index⟩) ∧
    ∀ id ∈ session.issued, ∀ id' ∈ session.issued,
      (id = id' ↔ (session.table.chain id).map NumberedFrame.point =
        (session.table.chain id').map NumberedFrame.point) := by
  have hvalid : session.Valid := hrun ▸ (Session.valid_start.run hadmits).1
  have hconsed := hvalid.built.consed
  refine ⟨hconsed.interned, fun caller point hcaller => ?_, fun id hid => ?_,
    fun id hid id' hid' => ⟨fun heq => by rw [heq], fun heq => ?_⟩⟩
  · exact hvalid.built.map_point_chain_intern point fun id hid => hvalid.issued id (hcaller id hid)
  · have hlt := hvalid.issued id hid
    obtain ⟨frame, hget⟩ := exists_get? hlt
    refine ⟨frame, hget, fun later hlater => ?_, hconsed.unwinds hlt, hconsed.length_chain hget,
      hconsed.withIndex_eq hget⟩
    obtain ⟨hlaterValid, hextends⟩ := hvalid.run hlater
    exact ⟨hextends id frame hget, hextends.chain_eq hconsed hlaterValid.built.consed hlt⟩
  · exact hconsed.eq_of_chain (hvalid.issued id hid) (hvalid.issued id' hid') heq

/-- A method that is called from two places of another one, and a return to the first place. -/
def twoCallers : List Operation :=
  [.intern none ⟨⟨"t/A", "m:()V"⟩, 0⟩, .intern (some 0) ⟨⟨"t/A", "k:()V"⟩, 0⟩, .withIndex 0 4,
    .intern (some 2) ⟨⟨"t/A", "k:()V"⟩, 0⟩, .withIndex 2 0]

/-- In `twoCallers` the frame of the first place has one number, which the map of frames gives, and
the two frames of the called method have two. -/
theorem handles_canonical_twoCallers :
    Session.start.Admits twoCallers ∧ (Session.start.run twoCallers).issued = [0, 3, 2, 1, 0] ∧
      (Session.start.run twoCallers).table.interned[
        (⟨⟨⟨"t/A", "m:()V"⟩, 0⟩, none, 0⟩ : NumberedFrame)]? = some 0 ∧
      (1 = 3 ↔ ((Session.start.run twoCallers).table.chain 1).map NumberedFrame.point =
        ((Session.start.run twoCallers).table.chain 3).map NumberedFrame.point) := by
  have hadmits : Session.start.Admits twoCallers := by decide +kernel
  have hissued : (Session.start.run twoCallers).issued = [0, 3, 2, 1, 0] := by decide +kernel
  obtain ⟨hinverse, -, -, hequal⟩ := handles_canonical hadmits rfl
  refine ⟨hadmits, hissued, (hinverse _ 0).mpr (by decide +kernel), hequal 1 ?_ 3 ?_⟩ <;>
    simp [hissued]

end CallNgrams.FrameTable
