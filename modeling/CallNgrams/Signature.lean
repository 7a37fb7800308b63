import CallNgrams.Method
import CallNgrams.Text.Cut

/-!
# Method signatures

A signature is written `name:(parameters)result`. Counting the parameters scans the text between
the first `:(` and the next `)`: array brackets are dropped, a letter of a primitive type counts
one, and so does a class type, which runs from `L` to the next `;`.
-/

namespace CallNgrams.Signature

/-- Why the parameters of a signature cannot be counted. -/
inductive Fault where
  | missingParameters
  | unterminatedParameters
  | unterminatedClass
  | unexpectedChar (c : Char)
deriving DecidableEq, Repr

/-- The message of a fault in `signature`. -/
def Fault.message (signature : String) : Fault → String
  | .missingParameters => "missing parameter list in " ++ signature
  | .unterminatedParameters => "unterminated parameter list in " ++ signature
  | .unterminatedClass => "unterminated class type in " ++ signature
  | .unexpectedChar c => "unexpected descriptor char '" ++ c.toString ++ "' in " ++ signature

/-- The letters of the types that are written with one letter. -/
def primitiveLetters : List Char :=
  ['V', 'Z', 'B', 'C', 'S', 'I', 'J', 'F', 'D']

/-- Counts the types of a text without array brackets; the flag says that the scan stands inside
a class name, which ends at the next semicolon. -/
def countTypes : Bool → List Char → Except Fault Nat
  | false, [] => .ok 0
  | true, [] => .error .unterminatedClass
  | true, c :: cs => countTypes (c != ';') cs
  | false, c :: cs =>
    if c = 'L' then (countTypes true cs).map (· + 1)
    else if c ∈ primitiveLetters then (countTypes false cs).map (· + 1)
    else .error (.unexpectedChar c)

/-- The text between the first `:(` and the next `)`. -/
def parameterText (signature : String) : Except Fault (List Char) :=
  match Text.afterFirst [':', '('] signature.toList with
  | none => .error .missingParameters
  | some rest =>
    match Text.cutFirst ')' rest with
    | none => .error .unterminatedParameters
    | some (parameters, _) => .ok parameters

/-- The number of parameters that a signature declares. -/
def parameterCount (signature : String) : Except Fault Nat := do
  let parameters ← parameterText signature
  countTypes false (parameters.filter (· != '['))

/-- The quoted name that starts the signature of every constructor. -/
def constructorMark : List Char :=
  "\"<init>\"".toList

/-- The name that starts the signature of every synthetic accessor. -/
def accessorMark : List Char :=
  "access$".toList

/-- Constructors, and the accessors that are treated like them. -/
def isConstructor (signature : String) : Bool :=
  constructorMark.isPrefixOf signature.toList || accessorMark.isPrefixOf signature.toList

/-- Reads `owner.signature`, cut at the first dot. -/
def splitOwner (cs : List Char) : Option MethodKey :=
  (Text.cutFirst '.' cs).map fun (owner, signature) =>
    ⟨String.ofList owner, String.ofList signature⟩

end CallNgrams.Signature
