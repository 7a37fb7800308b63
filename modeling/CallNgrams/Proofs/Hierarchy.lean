import CallNgrams.Proofs.Subclasses

/-!
# Narrowing dynamic calls

The receiver of a dynamic call is narrowed exactly where no other class of the program can provide
the method.
-/

namespace CallNgrams

open Relation

variable {methods direct transitive : ClassTable} {name signature : String}

/-- The methods that are final among the deriving classes are those that a class declares and none
of these declares again. -/
theorem notes_locallyFinalMethods :
    (locallyFinalMethods methods transitive).Notes name signature ↔
      methods.Notes name signature ∧
        ∀ sub, transitive.Notes name sub → ¬methods.Notes sub signature := by
  have hall : ((transitive.of name).all fun sub => !(methods.getD sub ∅).contains signature) =
      true ↔ ∀ sub, transitive.Notes name sub → ¬methods.Notes sub signature := by
    simp only [List.all_eq_true, Bool.not_eq_true', ← Bool.not_eq_true, ClassTable.contains_getD,
      ClassTable.mem_of]
  rw [← hall, ClassTable.Notes, locallyFinalMethods]
  simp only [Std.TreeMap.getElem?_map, Option.map_eq_some_iff]
  constructor
  · rintro ⟨_, ⟨declared, hdeclared, rfl⟩, hmem⟩
    obtain ⟨hmem, hkept⟩ := Std.TreeSet.mem_filter.mp hmem
    rw [Std.TreeSet.get_eq] at hkept
    exact ⟨⟨declared, hdeclared, hmem⟩, hkept⟩
  · rintro ⟨⟨declared, hdeclared, hmem⟩, hkept⟩
    refine ⟨_, ⟨declared, hdeclared, rfl⟩, Std.TreeSet.mem_filter.mpr ⟨hmem, ?_⟩⟩
    rwa [Std.TreeSet.get_eq]

namespace ClassHierarchy

/-- What the tables of a hierarchy say about the class that a dynamic call names. -/
theorem resolve_some_eq_some_iff {hierarchy : ClassHierarchy} {owner found : String}
    {receiverIsThis : Bool} :
    hierarchy.resolve (some owner) signature receiverIsThis = some found ↔
      owner = found ∧
        (owner ∉ hierarchy.methods ∨
          receiverIsThis = true ∧ hierarchy.locallyFinal.Notes owner signature ∨
          (∀ sub, ¬hierarchy.direct.Notes owner sub) ∧
            hierarchy.methods.Notes owner signature) := by
  rw [resolve, Option.bind_eq_bind, Option.bind_some]
  by_cases hknown : owner ∈ hierarchy.methods
  · have hcontains := Std.TreeMap.contains_iff_mem.mpr hknown
    simp only [hcontains, hknown, Bool.not_true, Bool.false_eq_true, if_false, not_true,
      false_or, Bool.not_not, Bool.or_eq_true, Bool.and_eq_true, ClassTable.contains_getD,
      ClassTable.isEmpty_of, Option.ite_none_right_eq_some, Option.some.injEq]
    exact and_comm
  · have hcontains : hierarchy.methods.contains owner = false :=
      Bool.eq_false_iff.mpr fun h => hknown (Std.TreeMap.contains_iff_mem.mp h)
    simp only [hcontains, hknown, Bool.not_false, if_true, Option.some.injEq, not_false_eq_true,
      true_or, and_true]

/-- A dynamic call is narrowed to the class that it names, and only if the program does not know
this class, or the class declares the method and either nothing derives from it directly or the
receiver is the running object and no other class that derives from it in any number of steps
declares the method. -/
theorem resolve_exact (methods direct : ClassTable) (untracked : UntrackedPolicy)
    (owner : Option String) (signature : String) (receiverIsThis : Bool) (found : String) :
    (ofTables methods direct untracked).resolve owner signature receiverIsThis = some found ↔
      owner = some found ∧
        (found ∉ methods ∨
          methods.Notes found signature ∧
            ((∀ sub, ¬direct.Notes found sub) ∨
              receiverIsThis = true ∧ ∀ sub, sub ≠ found → TransGen direct.Notes found sub →
                ¬methods.Notes sub signature)) := by
  cases owner with
  | none => simp [resolve]
  | some owner =>
    rw [resolve_some_eq_some_iff, Option.some.injEq]
    refine and_congr_right fun heq => ?_
    subst heq
    simp only [ofTables, notes_locallyFinalMethods, notes_transitiveSubclasses, and_imp]
    tauto

end ClassHierarchy

end CallNgrams
