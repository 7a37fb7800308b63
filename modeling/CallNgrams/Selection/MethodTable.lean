import CallNgrams.Body
import CallNgrams.Hierarchy
import CallNgrams.Selection.Pattern
import CallNgrams.Signature
import CallNgrams.SignatureTable

/-!
# Selecting methods

Before a program is searched, methods can be left out: those of excluded classes, constructors, and
signatures that too many classes define. The methods to start from are those that remain, or those
of the classes that match an entry pattern.
-/

namespace CallNgrams

/-- The method bodies of a program. -/
abbrev MethodTable := SignatureTable Body

namespace MethodTable

/-- The table of a sequence of bodies. -/
def ofBodies (bodies : List (MethodKey × Body)) : MethodTable :=
  SignatureTable.ofList bodies

/-- The signatures that each class declares. -/
def declared (table : MethodTable) : ClassTable :=
  table.toList.foldl (fun classes (key, _) => ClassTable.note classes key.owner key.signature) ∅

/-- The table without the classes that match; a signature without classes disappears. -/
def withoutClasses (table : MethodTable) (patterns : List ClassPattern) : MethodTable :=
  ⟨(table.rows.map fun _ row => row.filter fun owner _ => !isMatched patterns owner).filter
    fun _ row => !row.isEmpty⟩

/-- The classes of the table that match, in ascending order. -/
def matchingClasses (table : MethodTable) (patterns : List ClassPattern) : List String :=
  (Std.TreeSet.ofList ((table.toList.map fun entry => entry.1.owner).filter
    (isMatched patterns))).toList

/-- The table without the signatures of constructors and accessors. -/
def withoutConstructors (table : MethodTable) : MethodTable :=
  ⟨table.rows.filter fun signature _ => !Signature.isConstructor signature⟩

/-- The signatures of constructors and accessors, in ascending order. -/
def constructors (table : MethodTable) : List String :=
  table.rows.keys.filter Signature.isConstructor

/-- The table without the signatures that more than `most` classes define. -/
def withoutOverDefined (table : MethodTable) (most : Nat) : MethodTable :=
  ⟨table.rows.filter fun _ row => row.size ≤ most⟩

/-- The signatures that more than `most` classes define, in ascending order. -/
def overDefined (table : MethodTable) (most : Nat) : List String :=
  (table.rows.filter fun _ row => most < row.size).keys

/-- Applies a limit on definitions; only a positive one acts. -/
def limitDefinitions (table : MethodTable) (most : Int) : MethodTable :=
  if 0 < most then table.withoutOverDefined most.toNat else table

/-- The methods to start from, ordered by class, then by signature. Without patterns these are all
methods. -/
def targets (table : MethodTable) (entry : List ClassPattern) : List MethodKey :=
  table.keys.filter fun key => entry.isEmpty || isMatched entry key.owner

/-- The number of methods of each class, in ascending order of the classes. -/
def countByClass (methods : List MethodKey) : List (String × Nat) :=
  (methods.foldl (fun counts key => counts.insert key.owner (counts.getD key.owner 0 + 1))
    (∅ : Std.TreeMap String Nat)).toList

/-- The signatures that at least `least` classes define, with the number of classes, most defined
first, and in ascending order among equals. -/
def widelyDefined (table : MethodTable) (least : Nat) : List (String × Nat) :=
  let counts := table.rows.toList.map fun entry => (entry.1, entry.2.size)
  (counts.filter fun entry => least ≤ entry.2).mergeSort fun a b =>
    (compare b.2 a.2 |>.then (compare a.1 b.1)).isLE

end MethodTable

end CallNgrams
