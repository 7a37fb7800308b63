import Std.Data.TreeMap
import CallNgrams.Body
import CallNgrams.Dump.Basic
import CallNgrams.Hierarchy
import CallNgrams.Method

/-!
# Collecting dumps

Dumps are collected one after the other. A method that is defined again takes the later body, and
every class is noted under each class it directly derives from.
-/

namespace CallNgrams

/-- What has been collected from a sequence of dumps. -/
structure Collection where
  /-- The bodies by method. -/
  bodies : Std.TreeMap MethodKey Body
  /-- The classes that directly derive from each class. -/
  direct : ClassTable
  /-- The number of classes, counted as often as they are dumped. -/
  classCount : Nat
  /-- The number of dumps. -/
  dumpCount : Nat

namespace Collection

/-- The collection without dumps. -/
def empty : Collection :=
  ⟨∅, ∅, 0, 0⟩

/-- Adds the methods of a class. -/
def addMethods (owner : String) (bodies : Std.TreeMap MethodKey Body) (methods : List MethodDump) :
    Std.TreeMap MethodKey Body :=
  methods.foldl (fun bodies method =>
    bodies.insert ⟨owner, method.signature⟩ (Body.ofRecords method.instructions)) bodies

/-- Adds a class. -/
def addClass (collection : Collection) (dump : ClassDump) : Collection where
  bodies := addMethods dump.name collection.bodies dump.methods
  direct := dump.parents.foldl (fun direct parent => ClassTable.note direct parent dump.name)
    collection.direct
  classCount := collection.classCount + 1
  dumpCount := collection.dumpCount

/-- Adds a dump. -/
def add (collection : Collection) (dump : ProgramDump) : Collection :=
  let collection := dump.classes.foldl addClass collection
  { collection with dumpCount := collection.dumpCount + 1 }

/-- Collects a sequence of dumps. -/
def ofDumps (dumps : List ProgramDump) : Collection :=
  dumps.foldl add empty

end Collection

end CallNgrams
