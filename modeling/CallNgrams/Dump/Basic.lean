import CallNgrams.Instruction

/-!
# Program dumps

What a disassembler hands over: classes with the classes they derive from, and their methods with
the instructions of each.
-/

namespace CallNgrams

/-- A method with its instructions. -/
structure MethodDump where
  signature : String
  instructions : List InstructionRecord
deriving DecidableEq, Repr

/-- A class, the classes it derives from and its methods. -/
structure ClassDump where
  name : String
  superName : Option String
  interfaces : List String
  methods : List MethodDump
deriving DecidableEq, Repr

/-- The classes that a class directly extends or implements. -/
def ClassDump.parents (dump : ClassDump) : List String :=
  dump.superName.toList ++ dump.interfaces

/-- The classes of one input. -/
structure ProgramDump where
  classes : List ClassDump
deriving DecidableEq, Repr

end CallNgrams
