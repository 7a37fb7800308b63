import CallNgrams.Dump.Basic
import CallNgrams.Json.Reader
import CallNgrams.Text.Number

/-!
# Reading program dumps

Dumps are JSON. A dump, a class and a method are objects, or arrays that list their fields in
order; an instruction is an object. Known fields occur at most once, and unknown ones are skipped.
The unknown fields of an instruction have to be proper values all the same: Unicode texts, numbers
that double precision can hold, and a nesting that keeps the whole dump within its limit.
-/

namespace CallNgrams.Dump

/-- The nesting that an unknown field of an instruction may have. A dump may have 127 levels, and
an instruction stands on the seventh. -/
def fieldNesting : Nat := 120

/-- The values of the named fields of an object, or of an array that lists them in order. No value
is given for a field that is missing, and none at all for a shape that does not fit. -/
def fieldValues? (names : List String) : Json → Option (List (Option Json))
  | .object fields =>
    if fields.any (fun field => field.1.isNone) then none
    else if names.any (fun name => 1 < fields.countP fun field => field.1 == some name) then none
    else some (names.map fun name =>
      (fields.find? fun field => field.1 == some name).map Prod.snd)
  | .array items =>
    if items.length ≤ names.length then
      some (items.map some ++ List.replicate (names.length - items.length) none)
    else none
  | _ => none

/-- The value of a field that may be missing. -/
def fieldOr {α : Type} (default : α) (read : Json → Option α) : Option Json → Option α
  | some value => read value
  | none => some default

/-- Reads a text. -/
def text? : Json → Option String
  | .text value => value
  | _ => none

/-- Reads a text or null. -/
def nullableText? : Json → Option (Option String)
  | .null => some none
  | .text (some s) => some (some s)
  | _ => none

/-- Reads a list. -/
def list? {α : Type} (read : Json → Option α) : Json → Option (List α)
  | .array items => items.mapM read
  | _ => none

/-- Reads an offset. -/
def offset? : Json → Option Nat
  | .number literal => do
    let offset ← literal.nat?
    if offset < Text.unsignedBound then some offset else none
  | _ => none

/-- Whether a value is proper and nested at most as deep as the limit says. -/
def isProper : Nat → Json → Bool
  | _, .null => true
  | _, .bool _ => true
  | _, .number literal => literal.isFinite
  | _, .text value => value.isSome
  | 0, .array _ => false
  | 0, .object _ => false
  | limit + 1, .array items => items.all (isProper limit)
  | limit + 1, .object fields =>
    fields.all fun field => field.1.isSome && isProper limit field.2

/-- Reads an instruction with its offset. Its fields may be nested as deep as the limit says. -/
def instruction? (nesting : Nat) : Json → Option InstructionRecord
  | .object fields => do
    if !fields.all (fun field => isProper nesting field.2) then none
    else
      match ← fieldValues? ["offset", "opcode", "operands", "comment"] (.object fields) with
      | [some offset, some opcode, operands, comment] => do
        let offset ← offset? offset
        let opcode ← text? opcode
        let operands ← fieldOr [] (list? text?) operands
        let comment ← fieldOr none nullableText? comment
        some ⟨offset, ⟨opcode, operands, comment⟩⟩
      | _ => none
  | _ => none

/-- Reads a method. -/
def method? (value : Json) : Option MethodDump := do
  match ← fieldValues? ["signature", "instructions"] value with
  | [some signature, instructions] => do
    let signature ← text? signature
    let instructions ← fieldOr [] (list? (instruction? fieldNesting)) instructions
    some ⟨signature, instructions⟩
  | _ => none

/-- Reads a class. -/
def class? (value : Json) : Option ClassDump := do
  match ← fieldValues? ["name", "super_name", "interfaces", "methods"] value with
  | [some name, superName, interfaces, methods] => do
    let name ← text? name
    let superName ← fieldOr none nullableText? superName
    let interfaces ← fieldOr [] (list? text?) interfaces
    let methods ← fieldOr [] (list? method?) methods
    some ⟨name, superName, interfaces, methods⟩
  | _ => none

/-- Reads a dump from a value. -/
def ofJson? (value : Json) : Option ProgramDump := do
  match ← fieldValues? ["classes"] value with
  | [classes] => (fieldOr [] (list? class?) classes).map ProgramDump.mk
  | _ => none

/-- Reads a dump from a text. -/
def parse? (text : String) : Option ProgramDump := do
  ofJson? (← Json.parse? text)

end CallNgrams.Dump
