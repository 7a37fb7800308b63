import CallNgrams.Text.Cut

/-!
# Command-line arguments

Options are described by specifications and read from left to right. A long option takes its value
from the next argument or after an equals sign, short ones may be grouped, and the value of a short
option may follow it directly. An option that takes one or more values takes all arguments up to the
next option.
-/

namespace CallNgrams.CommandLine

/-- Why arguments are not a request. -/
inductive Stop where
  /-- The arguments do not fit. -/
  | usage
  /-- A description of the program is asked for. -/
  | display
deriving DecidableEq, Repr

/-- What an option takes. -/
inductive Takes where
  | nothing
  | one
  | oneOrMore
deriving DecidableEq, Repr

/-- The specification of an option. -/
structure OptionSpec where
  /-- The name behind two dashes. -/
  name : String
  /-- The letter behind one dash. -/
  letter : Option Char := none
  takes : Takes := .nothing
  /-- Whether the option may be given again. -/
  isRepeatable : Bool := false
  /-- Whether a negative number can be its value, although it looks like an option. -/
  takesNegative : Bool := false
  /-- The values that the option accepts. -/
  accepts : String → Bool := fun _ => true

/-- What can be given at one place of the command line. -/
structure Level where
  options : List OptionSpec
  /-- The names of the options that ask for a description. -/
  displays : List String
  /-- Their letters. -/
  displayLetters : List Char

/-- The options given so far, with their values, and an option that waits for values. -/
structure State where
  given : List (String × List String)
  waiting : Option (OptionSpec × List String)

namespace State

/-- The state before any argument. -/
def initial : State :=
  ⟨[], none⟩

/-- Takes an option with its values. -/
def take (state : State) (spec : OptionSpec) (values : List String) : Except Stop State :=
  if spec.takes != .nothing && values.isEmpty then .error .usage
  else if !values.all spec.accepts then .error .usage
  else if !spec.isRepeatable && state.given.any (fun given => given.1 == spec.name) then
    .error .usage
  else .ok { state with given := state.given ++ [(spec.name, values)] }

/-- Takes the option that waits for values, if there is one. -/
def settle (state : State) : Except Stop State :=
  match state.waiting with
  | none => .ok state
  | some (spec, values) => { state with waiting := none }.take spec values

/-- Takes an option that is complete, behind the one that may wait. -/
def takeNext (state : State) (spec : OptionSpec) (values : List String) : Except Stop State := do
  (← state.settle).take spec values

/-- An option waits for its values. -/
def await (state : State) (spec : OptionSpec) : Except Stop State := do
  let state ← state.settle
  .ok { state with waiting := some (spec, []) }

/-- A description is asked for, unless the option before is not in order. -/
def display (state : State) : Except Stop State := do
  let _ ← state.settle
  .error .display

/-- Gives a value to the waiting option. -/
def addValue (state : State) (spec : OptionSpec) (values : List String) (value : String) :
    Except Stop State :=
  if spec.takes == .oneOrMore then .ok { state with waiting := some (spec, values ++ [value]) }
  else { state with waiting := none }.take spec [value]

end State

/-- Reads a long option, given the text behind the dashes. -/
def readLong (level : Level) (state : State) (text : List Char) : Except Stop State :=
  let (name, value) := match Text.cutFirst '=' text with
    | some (name, value) => (String.ofList name, some (String.ofList value))
    | none => (String.ofList text, none)
  if level.displays.contains name then
    if value.isSome then .error .usage else state.display
  else
    match level.options.find? fun spec => spec.name == name with
    | none => .error .usage
    | some spec =>
      match spec.takes, value with
      | .nothing, some _ => .error .usage
      | .nothing, none => state.takeNext spec []
      | _, some value => state.takeNext spec [value]
      | _, none => state.await spec

/-- Reads grouped short options. -/
def readShort (level : Level) : State → List Char → Except Stop State
  | state, [] => .ok state
  | state, letter :: rest =>
    if level.displayLetters.contains letter then state.display
    else
      match level.options.find? fun spec => spec.letter == some letter with
      | none => .error .usage
      | some spec =>
        if spec.takes == .nothing then do
          let state ← state.takeNext spec []
          readShort level state rest
        else
          match rest with
          | [] => state.await spec
          | '=' :: value | value => state.takeNext spec [String.ofList value]

/-- Reads one argument that starts with one dash: a negative number for a waiting option that takes
such numbers, or short options. No short option is a digit, so the two are never confused. -/
def readDashed (level : Level) (state : State) (argument : String) (text : List Char) :
    Except Stop State :=
  match state.waiting with
  | some (spec, values) =>
    if spec.takesNegative && text.all Char.isDigit then state.addValue spec values argument
    else readShort level state text
  | none => readShort level state text

/-- Reads arguments up to the first that is neither an option nor a value. Nothing may follow a
double dash. -/
def readArguments (level : Level) : State → List String → Except Stop (State × List String)
  | state, [] => do .ok (← state.settle, [])
  | state, argument :: rest =>
    match argument.toList with
    | ['-', '-'] =>
      if rest.isEmpty then do .ok (← state.settle, []) else .error .usage
    | '-' :: '-' :: text => do
      let state ← readLong level state text
      readArguments level state rest
    | '-' :: c :: text => do
      let state ← readDashed level state argument (c :: text)
      readArguments level state rest
    | _ =>
      match state.waiting with
      | some (spec, values) => do
        let state ← state.addValue spec values argument
        readArguments level state rest
      | none => .ok (state, argument :: rest)

end CallNgrams.CommandLine
