import CallNgrams.Instruction

/-!
# Method bodies

A body holds the instructions of one method by offset. Offsets at which no instruction starts are
empty, and the length is one more than the highest offset.
-/

namespace CallNgrams

/-- The instructions of a method by offset. -/
structure Body where
  slots : Array (Option Instruction)
deriving DecidableEq, Repr

namespace Body

/-- One more than the highest offset, and zero without records. -/
def lengthOf (records : List InstructionRecord) : Nat :=
  records.foldl (fun length record => max length (record.offset + 1)) 0

/-- The body of a list of records; of several records at an offset the last one counts. -/
def ofRecords (records : List InstructionRecord) : Body :=
  ⟨records.foldl (fun slots record => slots.setIfInBounds record.offset (some record.instruction))
    (Array.replicate (lengthOf records) none)⟩

/-- The number of offsets. -/
def size (body : Body) : Nat :=
  body.slots.size

/-- The instruction that starts at an offset. -/
def get? (body : Body) (index : Nat) : Option Instruction :=
  (body.slots[index]?).join

/-- The instructions with their offsets, in ascending order. -/
def instructions (body : Body) : List (Nat × Instruction) :=
  (List.range body.size).filterMap fun index => (body.get? index).map fun found => (index, found)

/-- The instructions strictly before an offset, nearest first. -/
def preceding (body : Body) (index : Nat) : List Instruction :=
  ((List.range (min index body.size)).filterMap body.get?).reverse

/-- Whether only `count` pushes separate a push of the receiver from the offset. -/
def receiverIsThis (body : Body) (index count : Nat) : Bool :=
  let before := body.preceding index
  let arguments := before.take count
  arguments.length == count && arguments.all (fun found => Mnemonic.isPush found.opcode) &&
    (before.drop count).head?.any Instruction.isLoadThis

end Body

end CallNgrams
