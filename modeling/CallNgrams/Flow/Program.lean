import CallNgrams.Flow.Graph
import CallNgrams.SignatureTable

/-!
# Compiled programs

The graphs of all methods that could be compiled. A method whose instructions cannot be decoded is
left out; any other error concerns the whole program.
-/

namespace CallNgrams

/-- The compiled methods of a program. -/
abbrev GraphTable := SignatureTable MethodGraph

/-- Compiles one more method into a table. -/
def GraphTable.compileInto (hierarchy : Option ClassHierarchy) (removeRepetition : Bool)
    (table : GraphTable) (entry : MethodKey × Body) : Except Error GraphTable :=
  match entry.2.compile hierarchy removeRepetition entry.1 with
  | .ok graph => .ok (table.insert entry.1 graph)
  | .error (.malformed ..) => .ok table
  | .error e => .error e

/-- Compiles all methods of a list. -/
def GraphTable.compileAll (hierarchy : Option ClassHierarchy) (removeRepetition : Bool)
    (bodies : List (MethodKey × Body)) : Except Error GraphTable :=
  bodies.foldlM (GraphTable.compileInto hierarchy removeRepetition) SignatureTable.empty

end CallNgrams
