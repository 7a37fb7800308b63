import Std.Data.TreeMap
import CallNgrams.Method

/-!
# Tables by signature

Everything that is known per method is kept by signature, then by class, both in ascending order: a
call site names a signature, and its candidates are the classes listed under it.
-/

namespace CallNgrams

/-- Values of methods by signature, then by class. -/
structure SignatureTable (β : Type) where
  rows : Std.TreeMap String (Std.TreeMap String β)

namespace SignatureTable

variable {β : Type}

/-- The table without methods. -/
def empty : SignatureTable β :=
  ⟨∅⟩

/-- The classes that define a signature, with their values. -/
def row (table : SignatureTable β) (signature : String) : Std.TreeMap String β :=
  table.rows.getD signature ∅

/-- The value of a method. -/
def get? (table : SignatureTable β) (key : MethodKey) : Option β :=
  (table.row key.signature)[key.owner]?

/-- Gives a method a value, in place of the one it may have. -/
def insert (table : SignatureTable β) (key : MethodKey) (value : β) : SignatureTable β :=
  ⟨table.rows.insert key.signature ((table.row key.signature).insert key.owner value)⟩

/-- The classes that define a signature, in ascending order. -/
def definers (table : SignatureTable β) (signature : String) : List String :=
  (table.row signature).keys

/-- The methods with their values, ordered by signature, then by class. -/
def toList (table : SignatureTable β) : List (MethodKey × β) :=
  table.rows.toList.flatMap fun (signature, row) =>
    row.toList.map fun (owner, value) => (⟨owner, signature⟩, value)

/-- The table of a list of methods; of several values for a method the last one counts. -/
def ofList (entries : List (MethodKey × β)) : SignatureTable β :=
  entries.foldl (fun table (key, value) => table.insert key value) empty

/-- The number of methods. -/
def size (table : SignatureTable β) : Nat :=
  (table.rows.toList.map fun entry => entry.2.size).foldl (· + ·) 0

/-- The methods, ordered by class, then by signature. -/
def keys (table : SignatureTable β) : List MethodKey :=
  (table.toList.map Prod.fst).mergeSort fun a b => (compare a b).isLE

end SignatureTable

end CallNgrams
