import Mathlib.Data.List.DropRight
import CallNgrams.Text.Blank
import CallNgrams.Text.Cut
import CallNgrams.Text.Number

/-!
# Cuts, white space and numerals

A cut at the first separator is the one way to write a text with no separator before the cut, and a
cut at the last one is the one way with no separator behind it. Trimming leaves a text that neither
starts nor ends with white space, and changes no such text. The decimal digits of a number in range
are read as that number.
-/

namespace CallNgrams.Text

variable {sep : Char} {cs before after : List Char}

/-! ## Cuts -/

/-- A text without the separator is not cut. -/
theorem cutFirst_eq_none_iff : cutFirst sep cs = none ↔ sep ∉ cs := by
  induction cs with
  | nil => simp [cutFirst]
  | cons c cs ih =>
    rw [cutFirst, List.mem_cons, not_or]
    split
    case isTrue hc => simp [hc]
    case isFalse hc => rw [Option.map_eq_none_iff, ih, and_iff_right (Ne.symm hc)]

/-- The cut at the first separator is the one with no separator before it. -/
theorem cutFirst_eq_some_iff :
    cutFirst sep cs = some (before, after) ↔ cs = before ++ sep :: after ∧ sep ∉ before := by
  induction cs generalizing before with
  | nil => simp [cutFirst]
  | cons c cs ih =>
    rw [cutFirst]
    split
    case isTrue hc =>
      subst c
      cases before with
      | nil => simp
      | cons b before => simp +contextual
    case isFalse hc =>
      rw [Option.map_eq_some_iff]
      constructor
      · rintro ⟨⟨head, tail⟩, hcut, heq⟩
        obtain ⟨rfl, rfl⟩ := Prod.mk.inj heq
        obtain ⟨rfl, hhead⟩ := ih.mp hcut
        exact ⟨rfl, List.not_mem_cons_of_ne_of_not_mem (Ne.symm hc) hhead⟩
      · rintro ⟨heq, hbefore⟩
        cases before with
        | nil => exact absurd (List.cons.inj heq).1 hc
        | cons b before =>
          obtain ⟨rfl, rfl⟩ := List.cons.inj heq
          exact ⟨(before, after), ih.mpr ⟨rfl, fun h => hbefore (List.mem_cons_of_mem _ h)⟩, rfl⟩

/-- Nor is it cut from its end. -/
theorem cutLast_eq_none_iff : cutLast sep cs = none ↔ sep ∉ cs := by
  rw [cutLast, Option.map_eq_none_iff, cutFirst_eq_none_iff, List.mem_reverse]

/-- The cut at the last separator is the one with no separator behind it. -/
theorem cutLast_eq_some_iff :
    cutLast sep cs = some (before, after) ↔ cs = before ++ sep :: after ∧ sep ∉ after := by
  rw [cutLast, Option.map_eq_some_iff]
  constructor
  · rintro ⟨⟨tail, head⟩, hcut, heq⟩
    obtain ⟨rfl, rfl⟩ := Prod.mk.inj heq
    obtain ⟨hcs, htail⟩ := cutFirst_eq_some_iff.mp hcut
    refine ⟨?_, by rwa [List.mem_reverse]⟩
    rw [← List.reverse_reverse cs, hcs]
    simp
  · rintro ⟨rfl, hafter⟩
    refine ⟨(after.reverse, before.reverse), cutFirst_eq_some_iff.mpr ⟨by simp, ?_⟩, by simp⟩
    rwa [List.mem_reverse]

/-- A text ends with `after`, which follows its last `sep` or is all of it if there is none. -/
def EndsBehind (sep : Char) (cs after : List Char) : Prop :=
  sep ∉ after ∧ (cs = after ∨ ∃ before, cs = before ++ sep :: after)

/-- What a text ends with is found by cutting it at the last separator. -/
theorem endsBehind_iff :
    EndsBehind sep cs after ↔ (cutLast sep cs).elim cs Prod.snd = after := by
  cases hcut : cutLast sep cs with
  | none =>
    have hcs := cutLast_eq_none_iff.mp hcut
    rw [Option.elim_none]
    constructor
    · rintro ⟨-, rfl | ⟨before, rfl⟩⟩
      · rfl
      · exact absurd (List.mem_append_right _ List.mem_cons_self) hcs
    · rintro rfl
      exact ⟨hcs, .inl rfl⟩
  | some parts =>
    obtain ⟨head, tail⟩ := parts
    obtain ⟨rfl, htail⟩ := cutLast_eq_some_iff.mp hcut
    rw [Option.elim_some]
    constructor
    · rintro ⟨hafter, rfl | ⟨before, heq⟩⟩
      · exact absurd (List.mem_append_right _ List.mem_cons_self) hafter
      · have hsame := hcut.symm.trans (cutLast_eq_some_iff.mpr ⟨heq, hafter⟩)
        exact (Prod.mk.inj (Option.some.inj hsame)).2
    · rintro rfl
      exact ⟨htail, .inr ⟨head, rfl⟩⟩

/-- What follows a mark is found if the mark does not start before, also not so that it reaches into
the mark. -/
theorem afterFirst_append {mark : List Char} (hmark : mark ≠ [])
    (hbefore : ¬mark <:+: before ++ mark.dropLast) :
    afterFirst mark (before ++ (mark ++ after)) = some after := by
  have hpos : 0 < mark.length := List.length_pos_of_ne_nil hmark
  induction before with
  | nil =>
    have hfound : mark.isPrefixOf? (mark ++ after) = some after :=
      List.isPrefixOf?_eq_some_iff_append_eq.mpr rfl
    cases mark with
    | nil => exact absurd rfl hmark
    | cons c mark =>
      rw [List.cons_append] at hfound
      rw [List.nil_append, List.cons_append, afterFirst, hfound]
  | cons c before ih =>
    rw [List.cons_append, List.infix_cons_iff, not_or] at hbefore
    have hmissed : mark.isPrefixOf? (c :: (before ++ (mark ++ after))) = none := by
      rw [← Option.not_isSome_iff_eq_none, List.isSome_isPrefixOf?_eq_isPrefixOf,
        List.isPrefixOf_iff_prefix]
      -- the part before the last character of the mark is long enough to hold all of the mark
      intro hstart
      have hlong : c :: (before ++ mark.dropLast) <+: c :: (before ++ (mark ++ after)) := by
        rw [List.prefix_cons_inj, List.prefix_append_right_inj]
        exact (List.dropLast_prefix mark).trans (List.prefix_append mark after)
      refine hbefore.1 (List.prefix_of_prefix_length_le hstart hlong ?_)
      simp only [List.length_cons, List.length_append, List.length_dropLast]
      omega
    rw [List.cons_append, afterFirst, hmissed]
    exact ih hbefore.2

/-! ## White space -/

/-- A text that neither starts nor ends with white space. -/
structure Tight (cs : List Char) : Prop where
  first : ∀ c ∈ cs.head?, isBlank c = false
  last : ∀ c ∈ cs.getLast?, isBlank c = false

/-- Around a character that is not white space, only the start of what precedes and the end of what
follows matter. -/
theorem tight_append_cons_iff (hsep : isBlank sep = false) :
    Tight (before ++ sep :: after) ↔
      (∀ c ∈ before.head?, isBlank c = false) ∧ ∀ c ∈ after.getLast?, isBlank c = false := by
  have hfirst : (∀ c ∈ (before ++ sep :: after).head?, isBlank c = false) ↔
      ∀ c ∈ before.head?, isBlank c = false := by
    cases before <;> simp [hsep]
  have hlast : (∀ c ∈ (before ++ sep :: after).getLast?, isBlank c = false) ↔
      ∀ c ∈ after.getLast?, isBlank c = false := by
    cases h : after.getLast? <;> simp [List.getLast?_append, List.getLast?_cons, h, hsep]
  exact ⟨fun h => ⟨hfirst.mp h.first, hlast.mp h.last⟩, fun h => ⟨hfirst.mpr h.1, hlast.mpr h.2⟩⟩

/-- Trimming changes no tight text. -/
theorem Tight.trim_eq (h : Tight cs) : trim cs = cs := by
  have hstart : trimStart cs = cs := by
    rw [trimStart, List.dropWhile_eq_self_iff]
    intro hlength
    simpa using h.first _ (List.head?_eq_getElem? ▸ List.getElem?_eq_getElem hlength)
  rw [trim, hstart]
  refine List.rdropWhile_eq_self_iff.mpr fun hne => ?_
  simpa using h.last _ (List.getLast?_eq_some_getLast hne)

/-- Trimming leaves a tight text. -/
theorem tight_trim (cs : List Char) : Tight (trim cs) := by
  constructor
  · obtain ⟨rest, hrest⟩ : trim cs <+: trimStart cs := List.rdropWhile_prefix isBlank _
    intro c hc
    have hstart := List.head?_dropWhile_not isBlank cs
    rw [← trimStart, ← hrest, List.head?_append, Option.mem_def.mp hc] at hstart
    simpa using hstart
  · intro c hc
    have hne : trim cs ≠ [] := List.ne_nil_of_mem (List.mem_of_getLast? hc)
    rw [List.getLast?_eq_some_getLast hne, Option.mem_some] at hc
    rw [← hc]
    exact Bool.eq_false_iff.mpr (List.rdropWhile_last_not isBlank _ hne)

/-- Trimming drops white space only. -/
theorem mem_trimStart {c : Char} (hc : c ∈ cs) (hblank : isBlank c = false) : c ∈ trimStart cs := by
  rw [← List.takeWhile_append_dropWhile (p := isBlank) (l := cs), List.mem_append] at hc
  refine hc.resolve_left fun htake => ?_
  simp [List.mem_takeWhile_imp htake] at hblank

/-- Trimming keeps every character that is not white space. -/
theorem mem_trim {c : Char} (hc : c ∈ cs) (hblank : isBlank c = false) : c ∈ trim cs := by
  have hreverse : c ∈ (trimStart cs).reverse := List.mem_reverse.mpr (mem_trimStart hc hblank)
  exact List.mem_reverse.mpr (mem_trimStart hreverse hblank)

/-- White space behind a tight text is trimmed away again. -/
theorem Tight.trim_append_blank (h : Tight cs) (hne : cs ≠ []) {blank : Char}
    (hblank : isBlank blank = true) : trim (cs ++ [blank]) = cs := by
  have hstart : trimStart (cs ++ [blank]) = cs ++ [blank] := by
    obtain ⟨c, cs, rfl⟩ := List.exists_cons_of_ne_nil hne
    exact List.dropWhile_cons_of_neg (by simpa using h.first c rfl)
  calc
    trim (cs ++ [blank]) = trimEnd (cs ++ [blank]) := congrArg trimEnd hstart
    _ = trimEnd cs := List.rdropWhile_concat_pos _ _ _ hblank
    _ = cs := List.rdropWhile_eq_self_iff.mpr fun hne => by
      simpa using h.last _ (List.getLast?_eq_some_getLast hne)

/-! ## Numerals -/

theorem isBlank_of_isDigit {c : Char} (h : c.isDigit = true) : isBlank c = false := by
  obtain ⟨hlow, hhigh⟩ : 48 ≤ c.toNat ∧ c.toNat ≤ 57 := by
    simpa [Char.isDigit, UInt32.le_iff_toNat_le] using h
  simp only [isBlank, Bool.or_eq_false_iff, Bool.and_eq_false_iff, decide_eq_false_iff_not,
    beq_eq_false_iff_ne]
  omega

/-- A text that is read as digits consists of digits. -/
theorem isDigit_of_digits? {n : Nat} (h : digits? cs = some n) {c : Char} (hc : c ∈ cs) :
    c.isDigit = true := by
  rw [digits?, Option.ite_none_right_eq_some, Bool.and_eq_true, List.all_eq_true] at h
  exact h.1.2 c hc

/-- An unsigned numeral consists of digits, perhaps after a plus sign, and has a value in range. -/
theorem unsigned?_eq_some_iff {n : Nat} :
    unsigned? cs = some n ↔ n < unsignedBound ∧
      (digits? cs = some n ∨ ∃ rest, cs = '+' :: rest ∧ digits? rest = some n) := by
  have hbound : ∀ value : Option Nat,
      (value.bind fun value => if value < unsignedBound then some value else none) = some n ↔
        n < unsignedBound ∧ value = some n := by
    intro value
    cases value <;> simp +contextual [and_comm]
  unfold unsigned?
  split
  case h_1 rest =>
    have hplus : digits? ('+' :: rest) ≠ some n := fun hdigits => by
      have hdigit := isDigit_of_digits? hdigits List.mem_cons_self
      simp at hdigit
    refine (hbound (digits? rest)).trans ?_
    simp [hplus]
  case h_2 hplus =>
    refine (hbound (digits? cs)).trans (and_congr_right fun _ => ?_)
    rw [or_iff_left]
    rintro ⟨rest, hcs, -⟩
    exact hplus rest hcs

/-- A text with a character that is neither a digit nor a plus sign is not read as a number. -/
theorem unsigned?_eq_none_of_mem {c : Char} (hc : c ∈ cs) (hplus : c ≠ '+')
    (hdigit : c.isDigit = false) : unsigned? cs = none := by
  refine Option.eq_none_iff_forall_ne_some.mpr fun n h => ?_
  rcases (unsigned?_eq_some_iff.mp h).2 with hdigits | ⟨rest, rfl, hdigits⟩
  · simp [isDigit_of_digits? hdigits hc] at hdigit
  · have hrest : c ∈ rest := (List.mem_cons.mp hc).resolve_left hplus
    simp [isDigit_of_digits? hdigits hrest] at hdigit

theorem isDigit_of_mem_repr {n : Nat} {c : Char} (hc : c ∈ n.repr.toList) : c.isDigit = true := by
  rw [Nat.toList_repr] at hc
  exact Nat.isDigit_of_mem_toDigits (by decide) (by decide) hc

/-- The digits of a number are a tight text. -/
theorem tight_repr (n : Nat) : Tight n.repr.toList where
  first _ hc := isBlank_of_isDigit (isDigit_of_mem_repr (List.mem_of_head? hc))
  last _ hc := isBlank_of_isDigit (isDigit_of_mem_repr (List.mem_of_getLast? hc))

/-- The digits of a number are read as that number. -/
theorem digits?_repr (n : Nat) : digits? n.repr.toList = some n := by
  have hdigits : n.repr.toList.all Char.isDigit = true :=
    List.all_eq_true.mpr fun c hc => isDigit_of_mem_repr hc
  have hne : n.repr.toList.isEmpty = false := by simp
  have hvalue := Nat.ofDigitChars_ten_toDigits (n := n)
  rw [Nat.ofDigitChars_eq_foldl] at hvalue
  simp only [digits?, hne, hdigits, Bool.not_false, Bool.and_self, if_true, Option.some.injEq]
  simpa only [Nat.mul_comm, Nat.toList_repr] using hvalue

/-- So they are where the number has to be in range, if it is. -/
theorem unsigned?_repr {n : Nat} (h : n < unsignedBound) : unsigned? n.repr.toList = some n :=
  unsigned?_eq_some_iff.mpr ⟨h, .inl (digits?_repr n)⟩

end CallNgrams.Text
