import CallNgrams.Signature
import CallNgrams.Proofs.Text

/-!
# Counting parameters

Parameter types are written one behind the other, without separators. The scan of such a text counts
one for each type, whatever the names of the classes in it: brackets are dropped before the scan,
and a class name runs to its semicolon, so no letter in it is taken for a type.
-/

namespace CallNgrams.Signature

/-! ## Written types -/

/-- A type that is not an array: one of the primitive types, or a class. -/
inductive ElementType where
  | primitive (letter : Char) (isLetter : letter ∈ ['Z', 'B', 'C', 'S', 'I', 'J', 'F', 'D'])
  | reference (name : String) (unclosed : ';' ∉ name.toList) (inside : ')' ∉ name.toList)

/-- The letter, or the name of the class between `L` and a semicolon. -/
def ElementType.text : ElementType → String
  | .primitive letter _ => letter.toString
  | .reference name _ _ => "L" ++ name ++ ";"

/-- A type of a parameter: an element type, below some number of array dimensions. -/
structure ParameterType where
  dimensions : Nat
  element : ElementType

/-- One bracket for each dimension, and the element type. -/
def ParameterType.text (type : ParameterType) : String :=
  String.ofList (List.replicate type.dimensions '[') ++ type.element.text

/-- The signature of a method. -/
def written (name : String) (types : List ParameterType) (result : String) : String :=
  name ++ ":(" ++ String.join (types.map ParameterType.text) ++ ")" ++ result

/-! ## The scan -/

variable {cs rest : List Char}

/-- The letters of parameter types are letters of the scan, and mark nothing else. -/
theorem mem_primitiveLetters {letter : Char}
    (h : letter ∈ ['Z', 'B', 'C', 'S', 'I', 'J', 'F', 'D']) :
    letter ∈ primitiveLetters ∧ letter ≠ 'L' ∧ letter ≠ '[' ∧ letter ≠ ')' := by
  simp only [List.mem_cons, List.not_mem_nil, or_false] at h
  rcases h with rfl | rfl | rfl | rfl | rfl | rfl | rfl | rfl <;> decide

/-- The name of a class is passed over up to its end. -/
theorem countTypes_class (hname : ';' ∉ cs) :
    countTypes true (cs ++ ';' :: rest) = countTypes false rest := by
  induction cs with
  | nil => simp [countTypes]
  | cons c cs ih =>
    obtain ⟨hc, hcs⟩ := not_or.mp (List.mem_cons.not.mp hname)
    rw [List.cons_append, countTypes, bne_iff_ne.mpr (Ne.symm hc)]
    exact ih hcs

/-- Behind a type, with the brackets of the text dropped, the scan has counted one more. -/
theorem countTypes_text (type : ParameterType) :
    countTypes false (type.text.toList.filter (· != '[') ++ rest) =
      (countTypes false rest).map (· + 1) := by
  obtain ⟨dimensions, element⟩ := type
  have hbrackets : (ParameterType.text ⟨dimensions, element⟩).toList.filter (· != '[') =
      element.text.toList.filter (· != '[') := by
    simp [ParameterType.text]
  rw [hbrackets]
  cases element with
  | primitive letter isLetter =>
    obtain ⟨hmem, hclass, hbracket, -⟩ := mem_primitiveLetters isLetter
    simp [ElementType.text, countTypes, hmem, hclass, hbracket]
  | reference name unclosed inside =>
    have hname : ';' ∉ name.toList.filter (· != '[') :=
      fun hmem => unclosed (List.mem_filter.mp hmem).1
    have htext :
        (ElementType.reference name unclosed inside).text.toList.filter (· != '[') ++ rest =
          'L' :: (name.toList.filter (· != '[') ++ ';' :: rest) := by
      simp [ElementType.text]
    rw [htext, countTypes, if_pos rfl, countTypes_class hname]

/-- The scan counts each type once. -/
theorem countTypes_types (types : List ParameterType) :
    countTypes false ((types.flatMap fun type => type.text.toList).filter (· != '[')) =
      .ok types.length := by
  induction types with
  | nil => rfl
  | cons type types ih =>
    rw [List.flatMap_cons, List.filter_append, countTypes_text, ih]
    rfl

/-! ## The parameters of a signature -/

theorem parenthesis_not_mem_text (type : ParameterType) : ')' ∉ type.text.toList := by
  obtain ⟨dimensions, element⟩ := type
  cases element with
  | primitive letter isLetter =>
    obtain ⟨-, -, -, hletter⟩ := mem_primitiveLetters isLetter
    simp [ParameterType.text, ElementType.text, Ne.symm hletter]
  | reference name unclosed inside => simp [ParameterType.text, ElementType.text, inside]

/-- The text of the parameters starts behind the first `:(`, which is not in the name. -/
theorem parameterText_written {name : String} (hname : ¬[':', '('] <:+: name.toList)
    (types : List ParameterType) (result : String) :
    parameterText (written name types result) =
      .ok (types.flatMap fun type => type.text.toList) := by
  have htext : (written name types result).toList =
      name.toList ++ ([':', '('] ++
        ((types.flatMap fun type => type.text.toList) ++ ')' :: result.toList)) := by
    simp [written, List.flatMap_map]
  -- the mark cannot start with the last character of the name, since its characters differ
  have hmark : ¬[':', '('] <:+: name.toList ++ [':'] := by
    rw [List.infix_concat_iff, or_iff_left hname]
    intro hsuffix
    have hlast := hsuffix.getLast (by simp)
    simp at hlast
  have hparenthesis : ')' ∉ types.flatMap fun type => type.text.toList := by
    simp [parenthesis_not_mem_text]
  rw [parameterText, htext, Text.afterFirst_append (by simp) hmark]
  simp only [Text.cutFirst_eq_some_iff.mpr ⟨rfl, hparenthesis⟩]

/-- For every name without `:(`, every list of parameter types and every result, as many parameters
are counted as there are types. -/
theorem parameterCount_written {name : String} (hname : ¬[':', '('] <:+: name.toList)
    (types : List ParameterType) (result : String) :
    parameterCount (written name types result) = .ok types.length := by
  rw [parameterCount, parameterText_written hname]
  exact countTypes_types types

/-- Array types, and a class whose name holds letters of types and the marks of a signature. -/
def markedTypes : List ParameterType :=
  [⟨2, .primitive 'I' (by decide)⟩, ⟨1, .reference "LZ/(:[V" (by decide) (by decide)⟩,
    ⟨0, .primitive 'J' (by decide)⟩]

/-- The parameters of `markedTypes` are counted behind a name that ends with a colon. -/
theorem parameterCount_written_marked :
    ¬[':', '('] <:+: "m:".toList ∧
      written "m:" markedTypes "[D)" = "m::([[I[LLZ/(:[V;J)[D)" ∧
      parameterCount (written "m:" markedTypes "[D)") = .ok 3 := by
  have hname : ¬[':', '('] <:+: "m:".toList := by decide
  exact ⟨hname, by decide +kernel, parameterCount_written hname markedTypes "[D)"⟩

end CallNgrams.Signature
