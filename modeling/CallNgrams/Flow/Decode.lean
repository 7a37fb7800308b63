import CallNgrams.Body
import CallNgrams.CallComment
import CallNgrams.Flow.Cell
import CallNgrams.Flow.Destinations
import CallNgrams.Hierarchy

/-!
# From instructions to cells

Each instruction is first given its meaning for control flow: it passes control on, jumps, chooses
among destinations, calls or stops. The cells of a body then hold a command for every instruction
that does more than pass control on, and each command falls through to the following one.
-/

namespace CallNgrams

/-- The meaning of an instruction for control flow. -/
inductive Flow where
  /-- Control passes to the next offset. -/
  | pass
  /-- Control goes to a target. -/
  | jump (target : Nat)
  /-- Control goes to one of the targets or to the next offset. -/
  | choice (targets : List Nat)
  /-- A call is made, then control passes to the next offset. -/
  | call (target : CallTarget)
  /-- Control returns to the caller. -/
  | ret
  /-- Control leaves the method by an exception. -/
  | raise
deriving DecidableEq, Repr

namespace Flow

/-- Reads a target: an offset of the method, or the end behind its last offset. -/
def target (size : Nat) (text : String) : Except DecodeFault Nat :=
  match Text.unsigned? (Text.trim text.toList) with
  | none => .error (.badTarget text)
  | some target => if target > size then .error (.targetPastEnd target) else .ok target

/-- The target of an instruction that has exactly one. -/
def onlyTarget (size : Nat) (instruction : Instruction) : Except DecodeFault Nat :=
  match instruction.operands with
  | [operand] => target size operand
  | operands => .error (.targetCount instruction.opcode operands)

/-- The target text of a case: what follows its last colon. -/
def caseTarget (operand : String) : String :=
  match Text.cutLast ':' operand.toList with
  | some (_, target) => String.ofList target
  | none => operand

/-- The targets of a multiway branch. -/
def caseTargets (size : Nat) (instruction : Instruction) : Except DecodeFault (List Nat) :=
  instruction.operands.mapM fun operand => target size (caseTarget operand)

/-- The target that is kept of a call, if it is kept. Static and special calls are kept as they are
annotated. Dynamic calls lose their class without a hierarchy; with one, the class is narrowed and
untracked calls are dropped. -/
def keptTarget (hierarchy : Option ClassHierarchy) (body : Body) (index : Nat) (kind : CallKind)
    (annotated : CallTarget) : Except DecodeFault (Option CallTarget) :=
  if !kind.isDynamic then .ok (some annotated)
  else
    match hierarchy with
    | none => .ok (some ⟨none, annotated.signature⟩)
    | some known =>
      match Signature.parameterCount annotated.signature with
      | .error fault => .error (.badSignature annotated.signature fault)
      | .ok count =>
        let isThis := body.receiverIsThis index count
        let owner := known.resolve annotated.owner annotated.signature isThis
        if known.untracked.isUntracked owner annotated.signature then .ok none
        else .ok (some ⟨owner, annotated.signature⟩)

/-- The meaning of a call instruction. -/
def ofCall (hierarchy : Option ClassHierarchy) (context : String) (body : Body) (index : Nat)
    (kind : CallKind) (comment : String) : Except DecodeFault Flow :=
  match callTarget? context comment with
  | none => .error (.undecodableCall comment)
  | some annotated => do
    match ← keptTarget hierarchy body index kind annotated with
    | some target => .ok (.call target)
    | none => .ok .pass

/-- The meaning of the instruction at an offset of a body. -/
def ofInstruction (hierarchy : Option ClassHierarchy) (context : String) (body : Body)
    (index : Nat) (instruction : Instruction) : Except DecodeFault Flow :=
  match Mnemonic.kind instruction.opcode with
  | .ret => .ok .ret
  | .raise => .ok .raise
  | .jump => (onlyTarget body.size instruction).map .jump
  | .branch => (onlyTarget body.size instruction).map fun target => .choice [target]
  | .switch => (caseTargets body.size instruction).map .choice
  | .call kind => ofCall hierarchy context body index kind (instruction.comment.getD "")
  | .plain => .ok .pass

/-- The command of a meaning. Going to the next offset needs no command. -/
def command? (index : Nat) : Flow → Option Command
  | .pass => none
  | .jump target => if target = index + 1 then none else some (.jump target)
  | .choice targets =>
    let others := Destinations.ofList (targets.filter (· != index + 1))
    if others.isEmpty then none else some (.branch others)
  | .call target => some (.call target)
  | .ret => some .ret
  | .raise => some .raise

end Flow

namespace CellArray

/-- The command at an offset of a body, if it has one. -/
def decodeAt (hierarchy : Option ClassHierarchy) (method : MethodKey) (body : Body) (index : Nat) :
    Except Error (Option (Nat × Command)) :=
  match body.get? index with
  | none => .ok none
  | some instruction =>
    match Flow.ofInstruction hierarchy method.owner body index instruction with
    | .error fault => .error (.malformed ⟨method, index⟩ fault)
    | .ok flow => .ok ((flow.command? index).map fun command => (index, command))

/-- Puts commands into an array of empty cells; each falls through to the one listed after it. -/
def place : List (Nat × Command) → Array Cell → Array Cell
  | [], cells => cells
  | (index, command) :: rest, cells =>
    place rest (cells.setIfInBounds index ⟨rest.head?.map Prod.fst, some command⟩)

/-- The cells of a method body. -/
def ofBody (hierarchy : Option ClassHierarchy) (method : MethodKey) (body : Body) :
    Except Error CellArray := do
  let found ← (List.range body.size).mapM (decodeAt hierarchy method body)
  let commands := found.filterMap id ++ [(body.size, .ret)]
  .ok {
    method := method
    cells := place commands (Array.replicate (body.size + 1) .empty)
    entrance := (commands.head?.map Prod.fst).getD body.size }

end CellArray

end CallNgrams
