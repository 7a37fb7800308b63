import CallNgrams.Dump.Collect
import CallNgrams.Proofs.Hierarchy
import CallNgrams.Proofs.LastEntry
import CallNgrams.Proofs.Loop

/-!
# What a collection holds

A sequence of dumps comes down to two lists in the order of loading: the definitions of methods, and
the pairs of a class and one that derives from it. The body of a method is that of its last
definition, and the table of deriving classes holds exactly the pairs. So only the bodies can depend
on the order of the dumps, and they do only where two dumps define the same method.
-/

namespace CallNgrams

/-! ## Bodies -/

namespace Body

variable {records : List InstructionRecord} {length : Nat}

/-- The loop over the offsets ends below every bound of them. -/
theorem foldl_length_le_iff {start : Nat} :
    records.foldl (fun length record => max length (record.offset + 1)) start ≤ length ↔
      start ≤ length ∧ ∀ record ∈ records, record.offset < length := by
  induction records generalizing start with
  | nil => simp
  | cons record records ih =>
    rw [List.foldl_cons, ih, List.forall_mem_cons, Nat.max_le, and_assoc]
    rfl

/-- The length is the least one that all offsets lie below. -/
theorem lengthOf_le_iff :
    lengthOf records ≤ length ↔ ∀ record ∈ records, record.offset < length := by
  rw [lengthOf, foldl_length_le_iff, and_iff_right (Nat.zero_le length)]

/-- The length is one more than the highest offset. -/
theorem lengthOf_eq (records : List InstructionRecord) :
    lengthOf records = (records.map InstructionRecord.offset).max?.elim 0 (· + 1) := by
  cases hmax : (records.map InstructionRecord.offset).max? with
  | none =>
    obtain rfl : records = [] := by simpa using hmax
    rfl
  | some highest =>
    obtain ⟨hmem, hle⟩ := List.max?_eq_some_iff.mp hmax
    obtain ⟨record, hrecord, hoffset⟩ := List.mem_map.mp hmem
    apply Nat.le_antisymm
    · refine lengthOf_le_iff.mpr fun record hrecord => Nat.lt_succ_of_le ?_
      exact hle _ (List.mem_map_of_mem hrecord)
    · have hlt := lengthOf_le_iff.mp (Nat.le_refl _) record hrecord
      rwa [hoffset] at hlt

theorem size_slots_foldl (slots : Array (Option Instruction)) :
    (records.foldl (fun slots record =>
      slots.setIfInBounds record.offset (some record.instruction)) slots).size = slots.size := by
  induction records generalizing slots with
  | nil => rfl
  | cons record records ih => rw [List.foldl_cons, ih, Array.size_setIfInBounds]

/-- A body has room for its highest offset and no more. -/
theorem size_ofRecords (records : List InstructionRecord) :
    (ofRecords records).size = (records.map InstructionRecord.offset).max?.elim 0 (· + 1) := by
  rw [size, ofRecords, size_slots_foldl, Array.size_replicate, lengthOf_eq]

/-- An offset holds the instruction of the last record at it. -/
theorem get?_ofRecords (records : List InstructionRecord) (offset : Nat) :
    (ofRecords records).get? offset =
      (lastOf? InstructionRecord.offset records offset).map InstructionRecord.instruction := by
  have hput : ∀ record ∈ records, ∀ slots : Array (Option Instruction),
      slots.size = lengthOf records →
        (slots.setIfInBounds record.offset (some record.instruction)).size = lengthOf records ∧
          ∀ offset, ((slots.setIfInBounds record.offset (some record.instruction))[offset]?).join =
            if record.offset = offset then some record.instruction else (slots[offset]?).join := by
    intro record hrecord slots hsize
    have hlt : record.offset < slots.size :=
      hsize ▸ lengthOf_le_iff.mp (Nat.le_refl _) record hrecord
    refine ⟨by rw [Array.size_setIfInBounds, hsize], fun offset => ?_⟩
    rw [Array.getElem?_setIfInBounds]
    by_cases hoffset : record.offset = offset
    · simp [← hoffset, hlt]
    · simp [hoffset]
  have hfilled := get_foldl_put (fun slots offset => (slots[offset]?).join) hput
    (s := Array.replicate (lengthOf records) none) Array.size_replicate offset
  rw [get?, ofRecords, hfilled]
  have hempty :
      ((Array.replicate (lengthOf records) none : Array (Option Instruction))[offset]?).join =
        none := by
    rw [Array.getElem?_replicate]
    split <;> rfl
  rw [hempty, Option.or_none]

end Body

/-! ## What dumps define -/

/-- A method with its instructions, as a dump defines it. -/
structure MethodDefinition where
  key : MethodKey
  records : List InstructionRecord

/-- The methods that a class defines. -/
def ClassDump.definitions (dump : ClassDump) : List MethodDefinition :=
  dump.methods.map fun method => ⟨⟨dump.name, method.signature⟩, method.instructions⟩

/-- The methods that the classes of a dump define. -/
def ProgramDump.definitions (dump : ProgramDump) : List MethodDefinition :=
  dump.classes.flatMap ClassDump.definitions

/-- The classes that a class derives from, each with the class itself. -/
def ClassDump.derivations (dump : ClassDump) : List (String × String) :=
  dump.parents.map fun parent => (parent, dump.name)

/-- The classes that the classes of a dump derive from, each with the one that derives. -/
def ProgramDump.derivations (dump : ProgramDump) : List (String × String) :=
  dump.classes.flatMap ClassDump.derivations

/-- A class derives from its superclass and from its interfaces. -/
theorem ProgramDump.mem_derivations {dump : ProgramDump} {parent name : String} :
    (parent, name) ∈ dump.derivations ↔ ∃ derived ∈ dump.classes, derived.name = name ∧
      (derived.superName = some parent ∨ parent ∈ derived.interfaces) := by
  simp only [derivations, ClassDump.derivations, ClassDump.parents, List.mem_flatMap, List.mem_map,
    List.mem_append, Option.mem_toList, Prod.mk.injEq]
  constructor
  · rintro ⟨derived, hderived, found, hfound, rfl, hname⟩
    exact ⟨derived, hderived, hname, hfound⟩
  · rintro ⟨derived, hderived, hname, hparent⟩
    exact ⟨derived, hderived, parent, hparent, rfl, hname⟩

namespace Collection

/-- Gives a method the body of a definition. -/
def define (bodies : Std.TreeMap MethodKey Body) (definition : MethodDefinition) :
    Std.TreeMap MethodKey Body :=
  bodies.insert definition.key (Body.ofRecords definition.records)

/-- Notes a deriving class. -/
def derive (direct : ClassTable) (derivation : String × String) : ClassTable :=
  direct.note derivation.1 derivation.2

variable {collection : Collection} {dumps dumps' : List ProgramDump}

/-! ## One dump -/

theorem bodies_addClass (collection : Collection) (dump : ClassDump) :
    (collection.addClass dump).bodies = dump.definitions.foldl define collection.bodies := by
  rw [ClassDump.definitions, List.foldl_map]
  rfl

theorem direct_addClass (collection : Collection) (dump : ClassDump) :
    (collection.addClass dump).direct = dump.derivations.foldl derive collection.direct := by
  rw [ClassDump.derivations, List.foldl_map]
  rfl

/-- A dump adds the definitions of its classes, one after the other. -/
theorem bodies_add (collection : Collection) (dump : ProgramDump) :
    (collection.add dump).bodies = dump.definitions.foldl define collection.bodies :=
  foldl_view bodies_addClass dump.classes collection

/-- A dump adds what its classes derive from, one after the other. -/
theorem direct_add (collection : Collection) (dump : ProgramDump) :
    (collection.add dump).direct = dump.derivations.foldl derive collection.direct :=
  foldl_view direct_addClass dump.classes collection

theorem counts_foldl_addClass (classes : List ClassDump) (collection : Collection) :
    (classes.foldl addClass collection).classCount = collection.classCount + classes.length ∧
      (classes.foldl addClass collection).dumpCount = collection.dumpCount := by
  induction classes generalizing collection with
  | nil => exact ⟨rfl, rfl⟩
  | cons dump classes ih =>
    obtain ⟨hclasses, hdumps⟩ := ih (collection.addClass dump)
    rw [List.foldl_cons, hclasses, hdumps, List.length_cons]
    exact ⟨Nat.succ_add_eq_add_succ _ _, rfl⟩

/-- A dump is counted once and its classes each. -/
theorem counts_add (collection : Collection) (dump : ProgramDump) :
    (collection.add dump).classCount = collection.classCount + dump.classes.length ∧
      (collection.add dump).dumpCount = collection.dumpCount + 1 := by
  obtain ⟨hclasses, hdumps⟩ := counts_foldl_addClass dump.classes collection
  exact ⟨hclasses, congrArg (· + 1) hdumps⟩

/-! ## A sequence of dumps -/

theorem bodies_ofDumps (dumps : List ProgramDump) :
    (ofDumps dumps).bodies = (dumps.flatMap ProgramDump.definitions).foldl define ∅ :=
  foldl_view bodies_add dumps empty

theorem direct_ofDumps (dumps : List ProgramDump) :
    (ofDumps dumps).direct = (dumps.flatMap ProgramDump.derivations).foldl derive ∅ :=
  foldl_view direct_add dumps empty

theorem counts_foldl_add (dumps : List ProgramDump) (collection : Collection) :
    (dumps.foldl add collection).classCount =
        collection.classCount + (dumps.flatMap ProgramDump.classes).length ∧
      (dumps.foldl add collection).dumpCount = collection.dumpCount + dumps.length := by
  induction dumps generalizing collection with
  | nil => exact ⟨rfl, rfl⟩
  | cons dump dumps ih =>
    obtain ⟨hclasses, hdumps⟩ := ih (collection.add dump)
    obtain ⟨hfirst, hone⟩ := counts_add collection dump
    rw [List.foldl_cons, hclasses, hdumps, hfirst, hone, List.flatMap_cons, List.length_append,
      List.length_cons]
    omega

/-- A collection has counted every class and every dump that it was made from. -/
theorem counts_ofDumps (dumps : List ProgramDump) :
    (ofDumps dumps).classCount = (dumps.flatMap ProgramDump.classes).length ∧
      (ofDumps dumps).dumpCount = dumps.length := by
  obtain ⟨hclasses, hdumps⟩ := counts_foldl_add dumps empty
  exact ⟨hclasses.trans (Nat.zero_add _), hdumps.trans (Nat.zero_add _)⟩

/-- The body of a method is that of its last definition. -/
theorem getElem?_bodies_ofDumps (dumps : List ProgramDump) (key : MethodKey) :
    (ofDumps dumps).bodies[key]? =
      (lastOf? MethodDefinition.key (dumps.flatMap ProgramDump.definitions) key).map
        fun definition => Body.ofRecords definition.records := by
  have hdefine : ∀ definition ∈ dumps.flatMap ProgramDump.definitions,
      ∀ bodies : Std.TreeMap MethodKey Body, True → True ∧
        ∀ key, (define bodies definition)[key]? =
          if definition.key = key then some (Body.ofRecords definition.records)
          else bodies[key]? := by
    intro definition _ bodies _
    refine ⟨trivial, fun key => ?_⟩
    simp [define, Std.TreeMap.getElem?_insert]
  have hfilled := get_foldl_put (fun bodies key => bodies[key]?) hdefine (s := ∅) trivial key
  simpa [bodies_ofDumps] using hfilled

/-- The table of deriving classes holds what the dumps say. -/
theorem notes_direct_ofDumps {parent name : String} :
    (ofDumps dumps).direct.Notes parent name ↔
      ∃ dump ∈ dumps, (parent, name) ∈ dump.derivations := by
  have hstep : ∀ (direct : ClassTable) (derivation : String × String),
      (derive direct derivation).Notes parent name ↔
        derivation = (parent, name) ∨ direct.Notes parent name :=
    fun direct derivation => ClassTable.notes_note
  rw [direct_ofDumps, foldl_iff (ClassTable.Notes · parent name) hstep]
  simp [ClassTable.Notes]

/-- A class is in the table of deriving classes if one derives from it. -/
theorem mem_direct_ofDumps {parent : String} :
    parent ∈ (ofDumps dumps).direct ↔ ∃ name, (ofDumps dumps).direct.Notes parent name := by
  have hstep : ∀ (direct : ClassTable) (derivation : String × String),
      parent ∈ derive direct derivation ↔ derivation.1 = parent ∨ parent ∈ direct :=
    fun direct derivation => ClassTable.mem_note
  simp only [notes_direct_ofDumps]
  rw [direct_ofDumps, foldl_iff (parent ∈ ·) hstep, or_iff_left Std.TreeMap.not_mem_emptyc]
  constructor
  · rintro ⟨⟨_, name⟩, hmem, rfl⟩
    obtain ⟨dump, hdump, hderived⟩ := List.mem_flatMap.mp hmem
    exact ⟨name, dump, hdump, hderived⟩
  · rintro ⟨name, dump, hdump, hderived⟩
    exact ⟨(parent, name), List.mem_flatMap.mpr ⟨dump, hdump, hderived⟩, rfl⟩

/-! ## The order of the dumps -/

/-- The order of the dumps does not matter for the deriving classes. -/
theorem direct_perm (hperm : dumps.Perm dumps') (parent : String) :
    ((ofDumps dumps).direct[parent]?).map Std.TreeSet.toList =
      ((ofDumps dumps').direct[parent]?).map Std.TreeSet.toList := by
  have hnotes : ∀ name, (ofDumps dumps).direct.Notes parent name ↔
      (ofDumps dumps').direct.Notes parent name := fun name => by
    simp only [notes_direct_ofDumps, hperm.mem_iff]
  refine ClassTable.map_toList_congr ?_ hnotes
  simp only [mem_direct_ofDumps, hnotes]

/-- Nor does it for the bodies, if no two dumps define the same method. -/
theorem bodies_perm (hperm : dumps.Perm dumps')
    (hapart : ∀ dump ∈ dumps, ∀ other ∈ dumps, dump ≠ other →
      ∀ definition ∈ dump.definitions, ∀ definition' ∈ other.definitions,
        definition.key ≠ definition'.key) :
    (ofDumps dumps).bodies.toList = (ofDumps dumps').bodies.toList := by
  refine Std.TreeMap.Equiv.toList_eq (.of_forall_constGet?_eq fun key => ?_)
  rw [getElem?_bodies_ofDumps, getElem?_bodies_ofDumps, lastOf?_flatMap_perm hperm hapart]

/-- The body of a method is made of the records of its last definition, the last record of each
offset counts, and the length is one more than the highest offset. A class is listed under another
exactly if some dump names the other as its super class or among its interfaces. Another order of
the dumps leads to the same table of deriving classes, the same counts and, if no method is defined
in two different dumps, to the same bodies. -/
theorem ofDumps_exact (dumps : List ProgramDump) :
    (∀ key : MethodKey, (ofDumps dumps).bodies[key]? =
      (lastOf? MethodDefinition.key (dumps.flatMap ProgramDump.definitions) key).map
        fun definition => Body.ofRecords definition.records) ∧
    (∀ records : List InstructionRecord,
      (Body.ofRecords records).size =
          (records.map InstructionRecord.offset).max?.elim 0 (· + 1) ∧
        ∀ offset, (Body.ofRecords records).get? offset =
          (lastOf? InstructionRecord.offset records offset).map
            InstructionRecord.instruction) ∧
    (∀ parent name : String, name ∈ (ofDumps dumps).direct.of parent ↔
      ∃ dump ∈ dumps, ∃ derived ∈ dump.classes, derived.name = name ∧
        (derived.superName = some parent ∨ parent ∈ derived.interfaces)) ∧
    ((ofDumps dumps).classCount = (dumps.flatMap ProgramDump.classes).length ∧
      (ofDumps dumps).dumpCount = dumps.length) ∧
    ∀ dumps' : List ProgramDump, dumps.Perm dumps' →
      (∀ parent : String, ((ofDumps dumps).direct[parent]?).map Std.TreeSet.toList =
        ((ofDumps dumps').direct[parent]?).map Std.TreeSet.toList) ∧
      (ofDumps dumps).classCount = (ofDumps dumps').classCount ∧
      (ofDumps dumps).dumpCount = (ofDumps dumps').dumpCount ∧
      ((∀ dump ∈ dumps, ∀ other ∈ dumps, dump ≠ other →
        ∀ definition ∈ dump.definitions, ∀ definition' ∈ other.definitions,
          definition.key ≠ definition'.key) →
        (ofDumps dumps).bodies.toList = (ofDumps dumps').bodies.toList) := by
  refine ⟨getElem?_bodies_ofDumps dumps, fun records => ⟨Body.size_ofRecords records,
    Body.get?_ofRecords records⟩, fun parent name => ?_, counts_ofDumps dumps,
    fun dumps' hperm => ⟨direct_perm hperm, ?_, ?_, bodies_perm hperm⟩⟩
  · rw [ClassTable.mem_of, notes_direct_ofDumps]
    simp only [ProgramDump.mem_derivations]
  · rw [(counts_ofDumps dumps).1, (counts_ofDumps dumps').1, (hperm.flatMap_right _).length_eq]
  · rw [(counts_ofDumps dumps).2, (counts_ofDumps dumps').2, hperm.length_eq]

/-- A class that is defined twice in the first of two dumps, with a record that is overwritten. -/
def repeatedClass : List ProgramDump :=
  [⟨[⟨"t/A", some "t/B", [], [⟨"m:()V", [⟨4, ⟨"return", [], none⟩⟩]⟩]⟩,
      ⟨"t/A", none, ["t/C"], [⟨"m:()V", [⟨2, ⟨"nop", [], none⟩⟩, ⟨0, ⟨"nop", [], none⟩⟩,
        ⟨2, ⟨"return", [], none⟩⟩]⟩]⟩]⟩,
    ⟨[⟨"t/A", some "t/B", ["t/D"], [⟨"k:()V", []⟩]⟩]⟩]

/-- In `repeatedClass` no method is defined in both dumps, so their order does not matter. -/
theorem ofDumps_exact_repeatedClass :
    (∀ dump ∈ repeatedClass, ∀ other ∈ repeatedClass, dump ≠ other →
      ∀ definition ∈ dump.definitions, ∀ definition' ∈ other.definitions,
        definition.key ≠ definition'.key) ∧
    (((ofDumps repeatedClass).bodies[(⟨"t/A", "m:()V"⟩ : MethodKey)]?).map fun body =>
      (body.size, body.get? 2)) = some (3, some ⟨"return", [], none⟩) ∧
    (ofDumps repeatedClass).bodies.toList = (ofDumps repeatedClass.reverse).bodies.toList := by
  have hapart : ∀ dump ∈ repeatedClass, ∀ other ∈ repeatedClass, dump ≠ other →
      ∀ definition ∈ dump.definitions, ∀ definition' ∈ other.definitions,
        definition.key ≠ definition'.key := by
    decide +kernel
  obtain ⟨hbodies, -, -, -, horder⟩ := ofDumps_exact repeatedClass
  refine ⟨hapart, ?_, (horder _ (List.reverse_perm repeatedClass).symm).2.2.2 hapart⟩
  rw [hbodies]
  decide +kernel

end Collection

end CallNgrams
