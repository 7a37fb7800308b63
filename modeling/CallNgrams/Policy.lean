import CallNgrams.Text.Cut

/-!
# Policies

Two rules restrict what is mined. An untracked call leaves no trace in a compiled method, and an
undigged method is never entered by the search. Each rule has an identifier and a description.
-/

namespace CallNgrams

/-- Which calls are dropped when a method is compiled, by class, if known, and signature. -/
structure UntrackedPolicy where
  id : String
  description : String
  isUntracked : Option String → String → Bool

/-- Which signatures the search does not enter. -/
structure DigPolicy where
  id : String
  description : String
  isUndigged : String → Bool

/-- Calls on string builders and iterators, and calls of synthetic accessors. -/
def libraryHelperCalls : UntrackedPolicy where
  id := "UNTRACKED_LIBRARY_HELPERS"
  description := "Calls on StringBuilder/Iterator and access$ accessors"
  isUntracked owner signature :=
    owner == some "java/lang/StringBuilder" || owner == some "java/util/Iterator" ||
      Text.holds "access$".toList signature.toList

/-- Signatures of the object protocol and of map accessors, which nearly every class defines. -/
def commonSignatures : List String :=
  ["getClass:()Ljava/lang/Class;", "equals:(Ljava/lang/Object;)Z", "hashCode:()I",
    "compareTo:(Ljava/lang/Object;)I", "toString:()Ljava/lang/String;",
    "get:(Ljava/lang/Object;)Ljava/lang/Object;",
    "put:(Ljava/lang/Object;Ljava/lang/Object;)Ljava/lang/Object;",
    "getProperty:(Ljava/lang/Object;)Ljava/lang/Object;"]

/-- Keeps the search out of methods with too many definitions to be worth entering. -/
def commonObjectMethods : DigPolicy where
  id := "UNDIGGED_OBJECT_PROTOCOL"
  description := "equals/hashCode/toString and map accessors"
  isUndigged signature := signature ∈ commonSignatures

end CallNgrams
