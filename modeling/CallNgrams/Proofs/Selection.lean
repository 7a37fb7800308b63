import Mathlib.Algebra.BigOperators.Group.List.Lemmas
import Mathlib.Data.Set.Card
import CallNgrams.Proofs.Loop
import CallNgrams.Proofs.SignatureTable
import CallNgrams.Proofs.Text
import CallNgrams.Selection.MethodTable

/-!
# The selected methods

Classes, constructors and over-defined signatures are taken out of a table one after the other. Each
step is known by what it does to the body of a method, so a method is left exactly if every step
lets it pass, and the definitions of a signature are counted among the classes that no pattern
matches. Rows that lose all their classes disappear. The methods to start from ascend, and the
counts by class count each of them once.
-/

namespace CallNgrams

/-! ## Patterns -/

/-- A class has a pattern as it is written: the pattern names the class, or it is a package with
`/*` behind it and the class is directly in that package. -/
def HasPattern (pattern name : String) : Prop :=
  ¬['/', '*'] <:+ pattern.toList ∧ pattern = name ∨
    ∃ package simple : String, pattern = package ++ "/*" ∧ name = package ++ "/" ++ simple ∧
      '/' ∉ simple.toList

namespace ClassPattern

/-- The classes of a package are those whose name has one part more. -/
theorem isMatch_inPackage_iff {package name : String} :
    isMatch name (.inPackage package) = true ↔
      ∃ simple : String, name = package ++ "/" ++ simple ∧ '/' ∉ simple.toList := by
  rw [isMatch]
  constructor
  · intro h
    split at h
    case h_1 before simple hcut =>
      obtain ⟨hname, hsimple⟩ := Text.cutLast_eq_some_iff.mp hcut
      refine ⟨String.ofList simple, ?_, by simpa using hsimple⟩
      rw [beq_iff_eq.mp h] at hname
      rw [← String.toList_inj]
      simpa using hname
    case h_2 => cases h
  · rintro ⟨simple, rfl, hsimple⟩
    have hcut : Text.cutLast '/' (package ++ "/" ++ simple).toList =
        some (package.toList, simple.toList) :=
      Text.cutLast_eq_some_iff.mpr ⟨by simp, hsimple⟩
    simp only [hcut, beq_self_eq_true]

/-- A class is matched if it has the pattern as it is written. -/
theorem isMatch_ofText_iff {pattern name : String} :
    isMatch name (ofText pattern) = true ↔ HasPattern pattern name := by
  have hends : ∀ package : String, ['/', '*'] <:+ (package ++ "/*").toList :=
    fun package => by simp
  rw [ofText]
  split
  case h_1 package hsuffix =>
    have hpattern : pattern = String.ofList package ++ "/*" := by
      rw [← String.toList_inj, ← List.isSuffixOf?_eq_some_iff_append_eq.mp hsuffix]
      simp
    rw [isMatch_inPackage_iff]
    constructor
    · rintro ⟨simple, hname, hsimple⟩
      exact .inr ⟨String.ofList package, simple, hpattern, hname, hsimple⟩
    · rintro (⟨hplain, -⟩ | ⟨package', simple, hpattern', hname, hsimple⟩)
      · exact absurd (hpattern ▸ hends _) hplain
      · rw [(String.append_left_inj _).mp (hpattern.symm.trans hpattern')]
        exact ⟨simple, hname, hsimple⟩
  case h_2 hsuffix =>
    have hplain : ¬['/', '*'] <:+ pattern.toList := by
      rintro ⟨package, hpackage⟩
      rw [List.isSuffixOf?_eq_some_iff_append_eq.mpr hpackage] at hsuffix
      cases hsuffix
    rw [isMatch, beq_iff_eq]
    constructor
    · rintro rfl
      exact .inl ⟨hplain, rfl⟩
    · rintro (⟨-, rfl⟩ | ⟨package, -, rfl, -⟩)
      · rfl
      · exact absurd (hends package) hplain

end ClassPattern

theorem isMatched_iff {patterns : List String} {name : String} :
    isMatched (patterns.map ClassPattern.ofText) name = true ↔
      ∃ pattern ∈ patterns, HasPattern pattern name := by
  simp [isMatched, ClassPattern.isMatch_ofText_iff]

/-! ## Definitions and order -/

/-- The length of a row is the number of classes that define its signature. -/
theorem SignatureTable.size_row {β : Type} (table : SignatureTable β) (signature : String) :
    ((table.row signature).size : ℕ∞) =
      {owner | (table.get? ⟨owner, signature⟩).isSome}.encard := by
  have hdefiners : {owner | (table.get? ⟨owner, signature⟩).isSome} =
      ((table.definers signature).toFinset : Set String) := by
    ext owner
    simp [mem_definers]
  have hnodup : (table.definers signature).Nodup := Std.TreeMap.nodup_keys
  rw [hdefiners, Set.encard_coe_eq_coe_finsetCard, List.toFinset_card_of_nodup hnodup, definers,
    Std.TreeMap.length_keys]

/-- Methods are ordered by their class and then by their signature. -/
theorem MethodKey.compare_eq_lt_iff {a b : MethodKey} :
    compare a b = .lt ↔ a.owner < b.owner ∨ a.owner = b.owner ∧ a.signature < b.signature := by
  change (compare a.owner b.owner).then (compare a.signature b.signature) = .lt ↔ _
  rw [Ordering.then_eq_lt, Std.LawfulEqOrd.compare_eq_iff_eq]
  exact or_congr compareOfLessAndEq_eq_lt (and_congr_right fun _ => compareOfLessAndEq_eq_lt)

/-- A signature that counts as that of a constructor starts with one of two marks. -/
theorem Signature.isConstructor_eq_false_iff {signature : String} :
    isConstructor signature = false ↔
      ¬constructorMark <+: signature.toList ∧ ¬accessorMark <+: signature.toList := by
  rw [isConstructor, Bool.or_eq_false_iff]
  simp only [← Bool.not_eq_true, List.isPrefixOf_iff_prefix]

/-! ## Steps of the selection -/

namespace MethodTable

variable {table : MethodTable} {key : MethodKey} {signature : String}
  {patterns : List ClassPattern} {most : Nat} {bodies : Std.TreeMap MethodKey Body}

/-- The table of a collection has its bodies. -/
theorem get?_ofBodies (bodies : Std.TreeMap MethodKey Body) (key : MethodKey) :
    (ofBodies bodies.toList).get? key = bodies[key]? := by
  rw [ofBodies, SignatureTable.get?_ofList]
  cases hlast : lastOf? Prod.fst bodies.toList key with
  | none =>
    rw [lastOf?_eq_none_iff] at hlast
    refine (Option.eq_none_iff_forall_ne_some.mpr fun body hbody => ?_).symm
    exact hlast (key, body) (Std.TreeMap.mem_toList_iff_getElem?_eq_some.mpr hbody) rfl
  | some entry =>
    obtain ⟨hmem, rfl⟩ := mem_of_lastOf? hlast
    exact (Std.TreeMap.mem_toList_iff_getElem?_eq_some.mp hmem).symm

/-- To look up a class in a row, it does not matter whether an empty row is there. -/
theorem getElem?_getD_filter (row : Option (Std.TreeMap String Body)) (owner : String) :
    ((row.filter fun row => !row.isEmpty).getD ∅)[owner]? = (row.getD ∅)[owner]? := by
  cases row with
  | none => rfl
  | some row =>
    cases hempty : row.isEmpty with
    | false => simp [Option.filter_some, hempty]
    | true => simp [Option.filter_some, hempty, Std.TreeMap.getElem?_of_isEmpty hempty]

/-- Leaving out classes leaves the methods of the others. -/
theorem get?_withoutClasses :
    (table.withoutClasses patterns).get? key =
      if isMatched patterns key.owner = true then none else table.get? key := by
  simp only [SignatureTable.get?, SignatureTable.row, withoutClasses,
    Std.TreeMap.getD_eq_getD_getElem?, Std.TreeMap.getElem?_filter', getElem?_getD_filter,
    Std.TreeMap.getElem?_map]
  cases table.rows[key.signature]? with
  | none => simp
  | some row =>
    rw [Option.map_some, Option.getD_some, Option.getD_some, Std.TreeMap.getElem?_filter']
    cases row[key.owner]? <;> cases isMatched patterns key.owner <;> simp [Option.filter_some]

/-- Leaving out constructors drops their rows. -/
theorem row_withoutConstructors :
    (table.withoutConstructors).row signature =
      if Signature.isConstructor signature = true then ∅ else table.row signature := by
  simp only [SignatureTable.row, withoutConstructors, Std.TreeMap.getD_eq_getD_getElem?,
    Std.TreeMap.getElem?_filter']
  cases table.rows[signature]? with
  | none => simp
  | some row => cases Signature.isConstructor signature <;> simp [Option.filter_some]

/-- Leaving out what is defined too often drops the rows that are too long. -/
theorem row_withoutOverDefined :
    (table.withoutOverDefined most).row signature =
      if (table.row signature).size ≤ most then table.row signature else ∅ := by
  simp only [SignatureTable.row, withoutOverDefined, Std.TreeMap.getD_eq_getD_getElem?,
    Std.TreeMap.getElem?_filter']
  cases table.rows[signature]? with
  | none => simp
  | some row => by_cases hsize : row.size ≤ most <;> simp [Option.filter_some, hsize]

/-! ## What is left -/

/-- After the classes are left out, the bodies of the others are there as they were. -/
theorem get?_withoutClasses_ofBodies {exclude : List String} {body : Body} :
    ((ofBodies bodies.toList).withoutClasses (exclude.map ClassPattern.ofText)).get? key =
        some body ↔
      (¬∃ pattern ∈ exclude, HasPattern pattern key.owner) ∧ bodies[key]? = some body := by
  rw [get?_withoutClasses, get?_ofBodies, ← isMatched_iff]
  cases isMatched (exclude.map ClassPattern.ofText) key.owner <;> simp

/-- The definitions of a signature are counted after the excluded classes are gone. -/
theorem size_row_withoutClasses (bodies : Std.TreeMap MethodKey Body) (exclude : List String)
    (signature : String) :
    ((((ofBodies bodies.toList).withoutClasses (exclude.map ClassPattern.ofText)).row
      signature).size : ℕ∞) =
        {owner | (¬∃ pattern ∈ exclude, HasPattern pattern owner) ∧
          (⟨owner, signature⟩ : MethodKey) ∈ bodies}.encard := by
  rw [SignatureTable.size_row]
  congr 1
  ext owner
  simp only [Set.mem_ofPred_eq, Option.isSome_iff_exists, get?_withoutClasses_ofBodies,
    exists_and_left, Std.TreeMap.mem_iff_isSome_getElem?]

/-- The later steps leave a body if its row stays. -/
theorem get?_withoutOverDefined_eq_some_iff {body : Body} :
    (table.withoutConstructors.withoutOverDefined most).get? key = some body ↔
      table.get? key = some body ∧ Signature.isConstructor key.signature = false ∧
        (table.row key.signature).size ≤ most := by
  rw [SignatureTable.get?, row_withoutOverDefined, row_withoutConstructors, SignatureTable.get?]
  cases Signature.isConstructor key.signature with
  | true => simp
  | false => by_cases hsize : (table.row key.signature).size ≤ most <;> simp [hsize]

/-- Leaving out classes also leaves out the rows they alone were in, and the later steps only drop
whole rows. -/
theorem isEmpty_row_eq_false {row : Std.TreeMap String Body}
    (h : ((table.withoutClasses patterns).withoutConstructors.withoutOverDefined
      most).rows[signature]? = some row) : row.isEmpty = false := by
  simp only [withoutOverDefined, withoutConstructors, withoutClasses,
    Std.TreeMap.getElem?_filter', Option.filter_eq_some_iff] at h
  simpa using h.1.1.2

/-- The matching classes are those with a body that a pattern matches. -/
theorem mem_matchingClasses {owner : String} :
    owner ∈ table.matchingClasses patterns ↔
      isMatched patterns owner = true ∧ ∃ signature, (table.get? ⟨owner, signature⟩).isSome := by
  rw [matchingClasses, Std.TreeSet.mem_toList, Std.TreeSet.mem_ofList, List.contains_iff_mem,
    List.mem_filter, and_comm]
  refine and_congr_right fun _ => ?_
  rw [List.mem_map]
  constructor
  · rintro ⟨⟨key, body⟩, hmem, rfl⟩
    have hbody : table.get? key = some body := SignatureTable.mem_toList_iff.mp hmem
    exact ⟨key.signature, Option.isSome_iff_exists.mpr ⟨body, hbody⟩⟩
  · rintro ⟨signature, hsome⟩
    obtain ⟨body, hbody⟩ := Option.isSome_iff_exists.mp hsome
    exact ⟨(⟨owner, signature⟩, body), SignatureTable.mem_toList hbody, rfl⟩

/-! ## Methods to start from -/

/-- The methods to start from are those with a body, of the wanted classes if any are given. -/
theorem mem_targets {entry : List ClassPattern} :
    key ∈ table.targets entry ↔
      (table.get? key).isSome ∧ (entry = [] ∨ isMatched entry key.owner = true) := by
  simp [targets, List.mem_filter, SignatureTable.mem_keys]

theorem pairwise_targets (table : MethodTable) (entry : List ClassPattern) :
    (table.targets entry).Pairwise fun a b =>
      a.owner < b.owner ∨ a.owner = b.owner ∧ a.signature < b.signature :=
  (table.ascending_keys.imp MethodKey.compare_eq_lt_iff.mp).filter _

/-- One more method of a class adds one to the count of that class. -/
theorem getD_foldl_count (methods : List MethodKey) (counts : Std.TreeMap String Nat)
    (owner : String) :
    (methods.foldl (fun counts key => counts.insert key.owner (counts.getD key.owner 0 + 1))
      counts).getD owner 0 = counts.getD owner 0 + (methods.map MethodKey.owner).count owner := by
  induction methods generalizing counts with
  | nil => rfl
  | cons key methods ih =>
    rw [List.foldl_cons, ih, List.map_cons, List.count_cons, Std.TreeMap.getD_insert]
    by_cases howner : key.owner = owner
    · simp [howner]
      omega
    · simp [howner]

theorem mem_foldl_count (methods : List MethodKey) (counts : Std.TreeMap String Nat)
    (owner : String) :
    owner ∈ methods.foldl
        (fun counts key => counts.insert key.owner (counts.getD key.owner 0 + 1)) counts ↔
      (∃ key ∈ methods, key.owner = owner) ∨ owner ∈ counts :=
  foldl_iff (owner ∈ ·) (fun counts key => by simp [Std.TreeMap.mem_insert]) methods counts

/-- A class is counted once for each of its methods. -/
theorem mem_countByClass {methods : List MethodKey} {owner : String} {count : Nat} :
    (owner, count) ∈ countByClass methods ↔
      0 < count ∧ (methods.map MethodKey.owner).count owner = count := by
  have hcount := getD_foldl_count methods ∅ owner
  have hlisted := mem_foldl_count methods ∅ owner
  rw [countByClass, Std.TreeMap.mem_toList_iff_getElem?_eq_some]
  generalize methods.foldl _ (∅ : Std.TreeMap String Nat) = counts at hcount hlisted ⊢
  rw [Std.TreeMap.getD_eq_getD_getElem?, Std.TreeMap.getD_emptyc, Nat.zero_add] at hcount
  rw [or_iff_left Std.TreeMap.not_mem_emptyc, ← List.mem_map, ← List.count_pos_iff, ← hcount,
    Std.TreeMap.mem_iff_isSome_getElem?] at hlisted
  rw [← hcount]
  cases hfound : counts[owner]? with
  | none => exact iff_of_false (by simp) fun h => h.1.ne h.2
  | some found =>
    rw [hfound] at hlisted
    have hpos : 0 < found := hlisted.mp rfl
    simp only [Option.getD_some, Option.some.injEq]
    exact ⟨fun h => ⟨h ▸ hpos, h⟩, And.right⟩

/-- The classes that are counted are those of the methods, once each. -/
theorem map_fst_countByClass_perm (methods : List MethodKey) :
    ((countByClass methods).map Prod.fst).Perm (methods.map MethodKey.owner).dedup := by
  refine (List.perm_ext_iff_of_nodup ?_ (List.nodup_dedup _)).mpr fun owner => ?_
  · rw [countByClass, Std.TreeMap.map_fst_toList_eq_keys]
    exact Std.TreeMap.nodup_keys
  · rw [List.mem_dedup, List.mem_map, ← List.count_pos_iff]
    constructor
    · rintro ⟨⟨owner, count⟩, hmem, rfl⟩
      obtain ⟨hpos, hcount⟩ := mem_countByClass.mp hmem
      rwa [hcount]
    · intro hpos
      exact ⟨(owner, _), mem_countByClass.mpr ⟨hpos, rfl⟩, rfl⟩

/-- The counts of all classes add up to the number of methods. -/
theorem sum_countByClass (methods : List MethodKey) :
    ((countByClass methods).map Prod.snd).sum = methods.length := by
  have hcounts : (countByClass methods).map Prod.snd =
      ((countByClass methods).map Prod.fst).map (methods.map MethodKey.owner).count := by
    rw [List.map_map]
    exact List.map_congr_left fun entry hentry => (mem_countByClass.mp hentry).2.symm
  calc ((countByClass methods).map Prod.snd).sum
      = ((methods.map MethodKey.owner).dedup.map (methods.map MethodKey.owner).count).sum := by
        rw [hcounts, ((map_fst_countByClass_perm methods).map _).sum_eq]
    _ = methods.length := by rw [List.sum_map_count_dedup_eq_length, List.length_map]

/-- What a selection leaves, for all bodies, patterns and limits. A body is left, as it was, exactly
if no pattern excludes its class, its signature belongs neither to a constructor nor to an accessor,
and at most `most` of the classes that are not excluded define it. No row is empty, the excluded
classes are those with a body that a pattern matches, and the methods to start from ascend by class,
then by signature, and are all counted. -/
theorem selection_exact (bodies : Std.TreeMap MethodKey Body) (exclude entry : List String)
    (most : Nat) :
    let table := ofBodies bodies.toList
    let selected := (table.withoutClasses
      (exclude.map ClassPattern.ofText)).withoutConstructors.withoutOverDefined most
    let targets := selected.targets (entry.map ClassPattern.ofText)
    (∀ key body, selected.get? key = some body ↔
      bodies[key]? = some body ∧ (¬∃ pattern ∈ exclude, HasPattern pattern key.owner) ∧
        ¬Signature.constructorMark <+: key.signature.toList ∧
        ¬Signature.accessorMark <+: key.signature.toList ∧
        {owner | (¬∃ pattern ∈ exclude, HasPattern pattern owner) ∧
          (⟨owner, key.signature⟩ : MethodKey) ∈ bodies}.encard ≤ most) ∧
    (∀ (signature : String) (row : Std.TreeMap String Body),
      selected.rows[signature]? = some row → row.isEmpty = false) ∧
    (∀ owner, owner ∈ table.matchingClasses (exclude.map ClassPattern.ofText) ↔
      (∃ pattern ∈ exclude, HasPattern pattern owner) ∧
        ∃ signature, (⟨owner, signature⟩ : MethodKey) ∈ bodies) ∧
    (∀ key, key ∈ targets ↔ (selected.get? key).isSome ∧
      (entry = [] ∨ ∃ pattern ∈ entry, HasPattern pattern key.owner)) ∧
    (targets.Pairwise fun a b =>
      a.owner < b.owner ∨ a.owner = b.owner ∧ a.signature < b.signature) ∧
    (∀ owner count, (owner, count) ∈ countByClass targets ↔
      0 < count ∧ (targets.map MethodKey.owner).count owner = count) ∧
    ((countByClass targets).map Prod.snd).sum = targets.length := by
  intro table selected targets
  refine ⟨fun key body => ?_, fun signature row => isEmpty_row_eq_false, fun owner => ?_,
    fun key => ?_, pairwise_targets _ _, fun owner count => mem_countByClass, sum_countByClass _⟩
  · rw [get?_withoutOverDefined_eq_some_iff, get?_withoutClasses_ofBodies,
      Signature.isConstructor_eq_false_iff, ← Nat.cast_le (α := ℕ∞), size_row_withoutClasses,
      and_comm (a := ¬_), and_assoc, and_assoc]
  · simp only [mem_matchingClasses, isMatched_iff, table, get?_ofBodies,
      Std.TreeMap.mem_iff_isSome_getElem?]
  · rw [mem_targets, isMatched_iff, List.map_eq_nil_iff]

/-- Two classes define a method, one of them in a package of its own. -/
def sharedMethod : Std.TreeMap MethodKey Body :=
  ((∅ : Std.TreeMap MethodKey Body).insert ⟨"p/A", "m:()V"⟩
    ⟨#[some ⟨"return", [], none⟩]⟩).insert ⟨"p/q/B", "m:()V"⟩ ⟨#[]⟩

/-- Excluding one of the classes of `sharedMethod` leaves a single definition, so that a limit of
one lets the other pass. -/
theorem selection_exact_sharedMethod :
    (((ofBodies sharedMethod.toList).withoutClasses
      (["p/q/*"].map ClassPattern.ofText)).withoutConstructors.withoutOverDefined 1).get?
        ⟨"p/A", "m:()V"⟩ = some ⟨#[some ⟨"return", [], none⟩]⟩ ∧
    (¬∃ pattern ∈ ["p/q/*"], HasPattern pattern "p/A") ∧
    {owner | (¬∃ pattern ∈ ["p/q/*"], HasPattern pattern owner) ∧
      (⟨owner, "m:()V"⟩ : MethodKey) ∈ sharedMethod}.encard ≤ (1 : Nat) := by
  have hleft : (((ofBodies sharedMethod.toList).withoutClasses
      (["p/q/*"].map ClassPattern.ofText)).withoutConstructors.withoutOverDefined 1).get?
        ⟨"p/A", "m:()V"⟩ = some ⟨#[some ⟨"return", [], none⟩]⟩ := by
    decide +kernel
  obtain ⟨-, hmatched, -, -, hdefined⟩ :=
    ((selection_exact sharedMethod ["p/q/*"] [] 1).1 _ _).mp hleft
  exact ⟨hleft, hmatched, hdefined⟩

end MethodTable

end CallNgrams
