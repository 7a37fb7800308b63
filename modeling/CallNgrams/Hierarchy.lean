import Std.Data.TreeMap
import Std.Data.TreeSet
import CallNgrams.Policy

/-!
# Class hierarchy

The hierarchy knows which methods each class of the program declares and which classes directly
derive from which. From these it narrows the receiver of a dynamic call: a call resolves to the
class it names if no other class of the program can provide the method.
-/

namespace CallNgrams

/-- A set of names for each class, in ascending order. -/
abbrev ClassTable := Std.TreeMap String (Std.TreeSet String)

namespace ClassTable

/-- The names noted for a class. -/
def of (table : ClassTable) (name : String) : List String :=
  match table[name]? with
  | some names => names.toList
  | none => []

/-- Notes one more name for a class. -/
def note (table : ClassTable) (name member : String) : ClassTable :=
  table.insert name ((table.getD name ∅).insert member)

/-- The number of names noted for all classes together. -/
def total (table : ClassTable) : Nat :=
  (table.toList.map fun entry => entry.2.size).foldl (· + ·) 0

end ClassTable

/-- Collects what `next` leads to from the pending names, without `root`. A name is expanded when
it is first met, so the pending list is read at most once per name noted. -/
def collectFrom (next : String → List String) (root : String) :
    Nat → List String → Std.TreeSet String → Std.TreeSet String
  | 0, _, collected => collected
  | _ + 1, [], collected => collected
  | fuel + 1, name :: pending, collected =>
    if name == root || collected.contains name then collectFrom next root fuel pending collected
    else collectFrom next root fuel (next name ++ pending) (collected.insert name)

/-- The classes other than `name` that derive from it in one or more steps. Each name that the table
notes is pending at most once, and those of `name` twice; `total` counts all of them. -/
def subclassesOf (direct : ClassTable) (total : Nat) (name : String) : Std.TreeSet String :=
  collectFrom direct.of name (total + (direct.of name).length + 1) (direct.of name) ∅

/-- All deriving classes of each class that has a directly deriving one. -/
def transitiveSubclasses (direct : ClassTable) : ClassTable :=
  let total := direct.total
  (direct.filter fun _ names => !names.isEmpty).map fun name _ => subclassesOf direct total name

/-- The methods that each class declares and that no class deriving it declares again. -/
def locallyFinalMethods (methods transitive : ClassTable) : ClassTable :=
  methods.map fun name declared =>
    let subclasses := transitive.of name
    declared.filter fun signature =>
      subclasses.all fun sub => !(methods.getD sub ∅).contains signature

/-- What is known of the whole program when a dynamic call is narrowed. -/
structure ClassHierarchy where
  /-- The signatures that each class of the program declares. -/
  methods : ClassTable
  /-- The classes that directly derive from each class. -/
  direct : ClassTable
  /-- The declared signatures that no deriving class declares again. -/
  locallyFinal : ClassTable
  /-- The calls that are dropped. -/
  untracked : UntrackedPolicy

namespace ClassHierarchy

/-- The hierarchy of a table of declared methods and a table of directly deriving classes. -/
def ofTables (methods direct : ClassTable) (untracked : UntrackedPolicy) : ClassHierarchy where
  methods := methods
  direct := direct
  locallyFinal := locallyFinalMethods methods (transitiveSubclasses direct)
  untracked := untracked

/-- The number of classes that declare a method. -/
def classCount (hierarchy : ClassHierarchy) : Nat :=
  hierarchy.methods.size

/-- The receiver class of a dynamic call, if it can be narrowed to one. A class outside the program
has no overriding class inside it. A class of the program is the receiver if nothing derives from it
and it declares the method, or if the receiver is the running object and the method is final among
the deriving classes. -/
def resolve (hierarchy : ClassHierarchy) (owner : Option String) (signature : String)
    (receiverIsThis : Bool) : Option String := do
  let owner ← owner
  if !hierarchy.methods.contains owner then
    some owner
  else
    let isFinal := (hierarchy.locallyFinal.getD owner ∅).contains signature
    let isDeclared := (hierarchy.methods.getD owner ∅).contains signature
    let isDerived := !(hierarchy.direct.of owner).isEmpty
    if (receiverIsThis && isFinal) || (!isDerived && isDeclared) then some owner else none

end ClassHierarchy

end CallNgrams
