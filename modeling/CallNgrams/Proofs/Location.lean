import CallNgrams.Location
import CallNgrams.Proofs.Text

/-!
# Reading locations back

The text of a program point is read back as that point, with or without a depth behind it, although
a signature may hold every separator: what follows the last `>` of the text holds the comma of the
index and so is no depth, and no comma follows the one of the index. Reading trims the parts of a
text, so what it returns is always a point whose own text is read back.
-/

namespace CallNgrams

variable {cs front digits : List Char} {key : MethodKey}

/-- A method is its class and its signature, with the first dot between them. -/
theorem Signature.splitOwner_eq_some_iff :
    splitOwner cs = some key ↔
      cs = key.owner.toList ++ '.' :: key.signature.toList ∧ '.' ∉ key.owner.toList := by
  rw [splitOwner, Option.map_eq_some_iff]
  constructor
  · rintro ⟨⟨owner, signature⟩, hcut, rfl⟩
    simpa using Text.cutFirst_eq_some_iff.mp hcut
  · rintro ⟨hcs, hdot⟩
    refine ⟨(key.owner.toList, key.signature.toList), Text.cutFirst_eq_some_iff.mpr ⟨hcs, hdot⟩, ?_⟩
    simp

namespace ProgramPoint

variable {point : ProgramPoint} {text : String}

/-- A point whose text can be read: the class has no dot, the class does not start and the signature
does not end with white space, and the index is in range. -/
structure Readable (point : ProgramPoint) : Prop where
  undotted : '.' ∉ point.method.owner.toList
  start : ∀ c ∈ point.method.owner.toList.head?, Text.isBlank c = false
  stop : ∀ c ∈ point.method.signature.toList.getLast?, Text.isBlank c = false
  inRange : point.index < Text.unsignedBound

/-- The text of a point is its class, its signature and its index. -/
theorem toList_text (point : ProgramPoint) :
    point.text.toList = (point.method.owner.toList ++ '.' :: point.method.signature.toList) ++
      ',' :: point.index.repr.toList := by
  simp [text, MethodKey.text]

/-- What a text has to be to be read as a point. -/
theorem parse?_eq_some_iff :
    parse? text = some point ↔
      ∃ method index, Text.trim (withoutDepth text.toList) = method ++ ',' :: index ∧ ',' ∉ index ∧
        Text.unsigned? (Text.trim index) = some point.index ∧
        Signature.splitOwner (Text.trim method) = some point.method := by
  simp only [parse?, Option.bind_eq_bind, Option.bind_eq_some_iff, Prod.exists,
    Text.cutLast_eq_some_iff]
  constructor
  · rintro ⟨method, index, ⟨hcut, hcomma⟩, number, hnumber, key, hkey, hpoint⟩
    obtain rfl := Option.some.inj hpoint
    exact ⟨method, index, hcut, hcomma, hnumber, hkey⟩
  · rintro ⟨method, index, hcut, hcomma, hnumber, hkey⟩
    exact ⟨method, index, ⟨hcut, hcomma⟩, _, hnumber, _, hkey, rfl⟩

/-! ## The depth -/

/-- A text keeps its end if no depth follows any of its angle brackets. -/
theorem withoutDepth_eq_self
    (h : ∀ head tail, cs = head ++ '>' :: tail → Text.unsigned? (Text.trim tail) = none) :
    withoutDepth cs = cs := by
  rw [withoutDepth]
  split
  case h_1 head tail hcut => simp [h head tail (Text.cutLast_eq_some_iff.mp hcut).1]
  case h_2 => rfl

/-- A `>` before the comma of the index starts no depth. -/
theorem withoutDepth_of_index (hdigits : '>' ∉ digits) :
    withoutDepth (front ++ ',' :: digits) = front ++ ',' :: digits := by
  refine withoutDepth_eq_self fun head tail heq => ?_
  have hcomma : ',' ∈ tail := by
    rcases List.append_eq_append_iff.mp heq with ⟨rest, -, hrest⟩ | ⟨rest, -, hrest⟩
    · have hmem : '>' ∈ ',' :: digits := hrest ▸ List.mem_append_right rest List.mem_cons_self
      simp [hdigits] at hmem
    · cases rest with
      | nil => simp at hrest
      | cons _ rest =>
        rw [(List.cons.inj hrest).2]
        exact List.mem_append_right rest List.mem_cons_self
  exact Text.unsigned?_eq_none_of_mem (Text.mem_trim hcomma (by decide)) (by decide) (by decide)

/-- A depth that was appended is dropped again. -/
theorem withoutDepth_append {depth : Nat} (hdepth : depth < Text.unsignedBound) :
    withoutDepth (cs ++ '>' :: depth.repr.toList) = cs := by
  have hdigits : '>' ∉ depth.repr.toList := fun hmem => by
    simpa using Text.isDigit_of_mem_repr hmem
  have hcut : Text.cutLast '>' (cs ++ '>' :: depth.repr.toList) = some (cs, depth.repr.toList) :=
    Text.cutLast_eq_some_iff.mpr ⟨rfl, hdigits⟩
  have hnumber : Text.unsigned? (Text.trim depth.repr.toList) = some depth := by
    rw [(Text.tight_repr depth).trim_eq, Text.unsigned?_repr hdepth]
  simp only [withoutDepth, hcut, hnumber, Option.isSome_some, if_true]

/-! ## Round trips -/

theorem Readable.tight_method (h : point.Readable) :
    Text.Tight (point.method.owner.toList ++ '.' :: point.method.signature.toList) :=
  (Text.tight_append_cons_iff (by decide)).mpr ⟨h.start, h.stop⟩

/-- The text of a readable point needs no trimming. -/
theorem Readable.tight_text (h : point.Readable) : Text.Tight point.text.toList := by
  rw [toList_text, Text.tight_append_cons_iff (by decide)]
  exact ⟨h.tight_method.first, (Text.tight_repr point.index).last⟩

/-- Whatever leaves the text of a readable point, without its depth and trimmed, is read as that
point. -/
theorem Readable.parse?_eq_some (h : point.Readable)
    (htext : Text.trim (withoutDepth text.toList) = point.text.toList) :
    parse? text = some point := by
  rw [toList_text] at htext
  refine parse?_eq_some_iff.mpr ⟨_, _, htext, fun hmem => ?_, ?_, ?_⟩
  · simpa using Text.isDigit_of_mem_repr hmem
  · rw [(Text.tight_repr point.index).trim_eq, Text.unsigned?_repr h.inRange]
  · rw [h.tight_method.trim_eq]
    exact Signature.splitOwner_eq_some_iff.mpr ⟨rfl, h.undotted⟩

/-- A readable point is read back from its text. -/
theorem Readable.parse?_text (h : point.Readable) : parse? point.text = some point := by
  refine h.parse?_eq_some ?_
  have hdepth : withoutDepth point.text.toList = point.text.toList := by
    rw [toList_text]
    exact withoutDepth_of_index fun hmem => by simpa using Text.isDigit_of_mem_repr hmem
  rw [hdepth, h.tight_text.trim_eq]

/-- It is also read back with a depth behind it. -/
theorem Readable.parse?_text_depth (h : point.Readable) {depth : Nat}
    (hdepth : depth < Text.unsignedBound) :
    parse? (point.text ++ " >" ++ toString depth) = some point := by
  refine h.parse?_eq_some ?_
  have htext : (point.text ++ " >" ++ toString depth).toList =
      (point.text.toList ++ [' ']) ++ '>' :: depth.repr.toList := by
    simp
  have hne : point.text.toList ≠ [] := by simp [toList_text]
  rw [htext, withoutDepth_append hdepth, h.tight_text.trim_append_blank hne (by decide)]

/-- Every point that is read is readable. -/
theorem readable_of_parse? (h : parse? text = some point) : point.Readable := by
  obtain ⟨method, index, -, -, hnumber, hkey⟩ := parse?_eq_some_iff.mp h
  obtain ⟨hmethod, hdot⟩ := Signature.splitOwner_eq_some_iff.mp hkey
  have htight := Text.tight_trim method
  rw [hmethod, Text.tight_append_cons_iff (by decide)] at htight
  exact ⟨hdot, htight.1, htight.2, (Text.unsigned?_eq_some_iff.mp hnumber).1⟩

/-- The text of a point whose class has no dot and does not start with white space, and whose
signature does not end with it, is read as that point, and so it is with a depth behind it. Whatever
text is read as a point, the text of that point is read as the same point. -/
theorem locations_roundTrip :
    (∀ (point : ProgramPoint) (depth : Nat), point.Readable → depth < Text.unsignedBound →
      parse? point.text = some point ∧
        parse? (point.text ++ " >" ++ toString depth) = some point) ∧
    ∀ (text : String) (point : ProgramPoint), parse? text = some point →
      parse? point.text = some point := by
  refine ⟨fun point depth h hdepth => ⟨h.parse?_text, h.parse?_text_depth hdepth⟩, ?_⟩
  intro text point h
  exact (readable_of_parse? h).parse?_text

/-- A signature that holds every separator and ends like a location with a depth. -/
def separatorPoint : ProgramPoint :=
  ⟨⟨"t/A", "\"<init>\":(Lt/B.c;)V,1 >2"⟩, 7⟩

/-- The text of `separatorPoint` is read with a depth behind it, and so is a text with blanks, a
plus sign and zeros, from which the text of `separatorPoint` is restored. -/
theorem locations_roundTrip_separators :
    separatorPoint.Readable ∧
      parse? (separatorPoint.text ++ " >" ++ toString 3) = some separatorPoint ∧
      parse? " t/A.\"<init>\":(Lt/B.c;)V,1 >2 , +007>3 " = some separatorPoint ∧
      parse? separatorPoint.text = some separatorPoint := by
  have hreadable : separatorPoint.Readable :=
    ⟨by decide +kernel, by simp [separatorPoint, Text.isBlank],
      by simp [separatorPoint, Text.isBlank], by decide +kernel⟩
  have hblank : parse? " t/A.\"<init>\":(Lt/B.c;)V,1 >2 , +007>3 " = some separatorPoint := by
    decide +kernel
  exact ⟨hreadable, (locations_roundTrip.1 separatorPoint 3 hreadable (by decide +kernel)).2,
    hblank, locations_roundTrip.2 _ _ hblank⟩

end ProgramPoint

end CallNgrams
