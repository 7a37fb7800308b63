/-!
# Methods and call targets

A method is known by the class that owns it and by its signature, `name:descriptor`. A call site
names a signature and, where the receiver could be narrowed, one class.
-/

namespace CallNgrams

/-- A method: its class and its signature. -/
structure MethodKey where
  owner : String
  signature : String
deriving DecidableEq, Repr

namespace MethodKey

/-- The text `owner.signature`. -/
def text (key : MethodKey) : String :=
  key.owner ++ "." ++ key.signature

/-- Methods are ordered by class, then by signature. -/
instance : Ord MethodKey where
  compare := compareLex (compareOn MethodKey.owner) (compareOn MethodKey.signature)

instance : Std.TransOrd MethodKey :=
  inferInstanceAs (Std.TransCmp (compareLex (compareOn owner) (compareOn signature)))

instance : Std.LawfulEqOrd MethodKey where
  eq_of_compare {a b} h := by
    change (compareLex (compareOn owner) (compareOn signature)) a b = .eq at h
    simp only [compareLex_eq_eq, compareOn, Std.LawfulEqOrd.compare_eq_iff_eq] at h
    obtain ⟨ho, hs⟩ := h
    cases a
    cases b
    simp_all

end MethodKey

/-- What a call site calls; a missing owner is a receiver that could not be narrowed. -/
structure CallTarget where
  owner : Option String
  signature : String
deriving DecidableEq, Repr

namespace CallTarget

/-- The label of a call in an n-gram: the signature, behind its class if that is known. -/
def label (target : CallTarget) : String :=
  match target.owner with
  | some owner => owner ++ "." ++ target.signature
  | none => target.signature

/-- Targets are ordered by owner, a missing one first, then by signature. -/
instance : Ord CallTarget where
  compare := compareLex (compareOn CallTarget.owner) (compareOn CallTarget.signature)

end CallTarget

end CallNgrams
