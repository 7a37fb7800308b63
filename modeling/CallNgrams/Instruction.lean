/-!
# Instructions

Instructions of the virtual machine as a disassembler lists them: a mnemonic, operand texts and an
optional comment. Control flow only distinguishes a few kinds of mnemonics.
-/

namespace CallNgrams

/-- How a call instruction selects its callee. -/
inductive CallKind where
  | virtual
  | interface
  | special
  | static
deriving DecidableEq, Repr

/-- Whether the callee depends on the class of the receiver. -/
def CallKind.isDynamic : CallKind → Bool
  | .virtual | .interface => true
  | .special | .static => false

/-- What a mnemonic means for control flow. -/
inductive InstructionKind where
  | branch
  | jump
  | switch
  | ret
  | raise
  | call (kind : CallKind)
  | plain
deriving DecidableEq, Repr

namespace Mnemonic

/-- Mnemonics of conditional branches. -/
def branches : List String :=
  ["ifeq", "ifne", "iflt", "ifge", "ifgt", "ifle", "ifnull", "ifnonnull", "if_icmpeq",
    "if_icmpne", "if_icmplt", "if_icmpge", "if_icmpgt", "if_icmple", "if_acmpeq", "if_acmpne"]

/-- Mnemonics of unconditional jumps. -/
def jumps : List String :=
  ["goto", "goto_w"]

/-- Mnemonics of multiway branches. -/
def switches : List String :=
  ["lookupswitch", "tableswitch"]

/-- Mnemonics that return to the caller. -/
def returns : List String :=
  ["return", "ireturn", "lreturn", "freturn", "dreturn", "areturn"]

/-- Mnemonics that only push a value, by which argument setup is recognised. -/
def pushes : List String :=
  ["bipush", "sipush", "ldc", "ldc_w", "ldc2_w", "iconst_m1", "iconst_0", "iconst_1", "iconst_2",
    "iconst_3", "iconst_4", "iconst_5", "lconst_0", "lconst_1", "fconst_0", "fconst_1",
    "fconst_2", "dconst_0", "dconst_1", "aconst_null", "iload", "lload", "fload", "dload",
    "aload", "iload_0", "iload_1", "iload_2", "iload_3", "lload_0", "lload_1", "lload_2",
    "lload_3", "fload_0", "fload_1", "fload_2", "fload_3", "dload_0", "dload_1", "dload_2",
    "dload_3", "aload_0", "aload_1", "aload_2", "aload_3"]

/-- The mnemonic that pushes the receiver of the running method. -/
def loadThis : String :=
  "aload_0"

/-- The kind of a mnemonic; what control flow does not know is plain. -/
def kind (opcode : String) : InstructionKind :=
  if opcode = "invokevirtual" then .call .virtual
  else if opcode = "invokeinterface" then .call .interface
  else if opcode = "invokespecial" then .call .special
  else if opcode = "invokestatic" then .call .static
  else if opcode ∈ branches then .branch
  else if opcode ∈ jumps then .jump
  else if opcode ∈ switches then .switch
  else if opcode ∈ returns then .ret
  else if opcode = "athrow" then .raise
  else .plain

/-- Whether a mnemonic only pushes a value. -/
def isPush (opcode : String) : Bool :=
  opcode ∈ pushes

end Mnemonic

/-- A decoded instruction. -/
structure Instruction where
  opcode : String
  operands : List String
  comment : Option String
deriving DecidableEq, Repr

namespace Instruction

/-- The mnemonic, the operands with commas between them, and the comment. -/
def text (instruction : Instruction) : String :=
  let operands :=
    if instruction.operands.isEmpty then "" else " " ++ ", ".intercalate instruction.operands
  let comment := match instruction.comment with
    | some comment => " " ++ comment
    | none => ""
  instruction.opcode ++ operands ++ comment

/-- A push of the receiver, with nothing else noted beside it. -/
def isLoadThis (instruction : Instruction) : Bool :=
  instruction.opcode == Mnemonic.loadThis && instruction.operands.isEmpty &&
    instruction.comment.isNone

end Instruction

/-- An instruction at its offset. -/
structure InstructionRecord where
  offset : Nat
  instruction : Instruction
deriving DecidableEq, Repr

end CallNgrams
