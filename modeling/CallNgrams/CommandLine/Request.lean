import CallNgrams.CommandLine.Arguments
import CallNgrams.Text.Number

/-!
# Requests

The two things the program is asked for: the n-grams of the methods of a program, and the traces of
a call sequence. Both load and compile a program in the same way.
-/

namespace CallNgrams

/-- What an n-gram request writes. -/
inductive Mode where
  | ngrams
  | diagnostic
  | signatures
  | methodBody
deriving DecidableEq, Repr

/-- How n-grams are written. -/
inductive Format where
  | text
  | json
deriving DecidableEq, Repr

/-- What both requests say about the program and the search. -/
structure ProgramRequest where
  input : String
  output : Option String
  size : Int
  maxCallDepth : Int
  maxMethodDefinition : Int
  allowRepetitive : Bool
  noBranch : Bool
  exclude : List String
  noDispatch : Bool
  noReturning : Bool
  countSurface : Bool
deriving DecidableEq, Repr

/-- A request for n-grams. -/
structure NgramRequest where
  program : ProgramRequest
  entry : List String
  includeConstructors : Bool
  mode : Mode
  format : Format
deriving DecidableEq, Repr

/-- A request for traces. -/
structure TraceRequest where
  program : ProgramRequest
  sequence : List String
  locations : List String
  wantsCommon : Bool
  wantsMaxDepth : Bool
  wantsUnique : Bool
deriving DecidableEq, Repr

/-- A request of the command line. -/
inductive Request where
  | ngram (request : NgramRequest)
  | trace (request : TraceRequest)
deriving DecidableEq, Repr

namespace Request

/-- What the request says about the program. -/
def program : Request → ProgramRequest
  | .ngram request => request.program
  | .trace request => request.program

end Request

/-- The names of the modes. -/
def Mode.ofName? : String → Option Mode
  | "ngrams" => some .ngrams
  | "diagnostic" => some .diagnostic
  | "signatures" => some .signatures
  | "method-body" => some .methodBody
  | _ => none

/-- The names of the formats. -/
def Format.ofName? : String → Option Format
  | "text" => some .text
  | "json" => some .json
  | _ => none

namespace CommandLine

/-- An option without a value. -/
def flagOption (name : String) (letter : Option Char) : OptionSpec :=
  { name := name, letter := letter }

/-- An option for a path, which is never empty. -/
def pathOption (name : String) : OptionSpec :=
  { name := name, takes := .one, accepts := fun value => !value.isEmpty }

/-- An option for an integer. -/
def integerOption (name : String) (letter : Option Char) : OptionSpec :=
  { name := name, letter := letter, takes := .one, takesNegative := true,
    accepts := fun value => (Text.signed? value.toList).isSome }

/-- The options that can stand before and behind the name of a request. -/
def sharedOptions : List OptionSpec :=
  [flagOption "verbose" none, flagOption "quiet" none, flagOption "timing" none]

/-- The options of both requests. -/
def programOptions : List OptionSpec :=
  [pathOption "input", pathOption "output", integerOption "ngram-size" (some 'n'),
    integerOption "max-call-depth" none, integerOption "max-method-definition" none,
    flagOption "allow-repetitive-ngram" none, flagOption "no-branch-ngram" none,
    { name := "exclude", letter := some 'e', takes := .one, isRepeatable := true },
    flagOption "no-dispatch-optimization" none, flagOption "no-returning-execution-path" none,
    flagOption "count-branch-in-surface-level" none]

/-- The options of an n-gram request. -/
def ngramOptions : List OptionSpec :=
  [{ name := "entry", takes := .one, isRepeatable := true }, flagOption "include-ctors" none,
    { name := "mode", takes := .one, accepts := fun value => (Mode.ofName? value).isSome },
    { name := "format", takes := .one, accepts := fun value => (Format.ofName? value).isSome }]

/-- The options of a trace request. -/
def traceOptions : List OptionSpec :=
  [{ name := "seq", takes := .oneOrMore, isRepeatable := true },
    { name := "loc", takes := .oneOrMore, isRepeatable := true },
    flagOption "metric-clat" (some 'c'), flagOption "metric-max-depth" (some 'd'),
    flagOption "metric-unique-method" (some 'u')]

/-- What can stand before the name of a request. -/
def outerLevel : Level :=
  ⟨sharedOptions, ["help", "version"], ['h', 'V']⟩

/-- What can stand behind the name of a request. -/
def innerLevel (options : List OptionSpec) : Level :=
  ⟨sharedOptions ++ programOptions ++ options, ["help"], ['h']⟩

/-- Whether an option is given. -/
def isGiven (state : State) (name : String) : Bool :=
  state.given.any fun given => given.1 == name

/-- All values of an option. -/
def valuesOf (state : State) (name : String) : List String :=
  (state.given.filter fun given => given.1 == name).flatMap Prod.snd

/-- The value of an option. -/
def valueOf? (state : State) (name : String) : Option String :=
  (valuesOf state name).head?

/-- The integer value of an option. -/
def integerOf (state : State) (name : String) (default : Int) : Int :=
  ((valueOf? state name).bind fun value => Text.signed? value.toList).getD default

/-- What the options say about the program; the input has to be given. -/
def programRequest (state : State) : Except Stop ProgramRequest :=
  match valueOf? state "input" with
  | none => .error .usage
  | some input => .ok {
      input := input
      output := valueOf? state "output"
      size := integerOf state "ngram-size" 6
      maxCallDepth := integerOf state "max-call-depth" (-2)
      maxMethodDefinition := integerOf state "max-method-definition" (-1)
      allowRepetitive := isGiven state "allow-repetitive-ngram"
      noBranch := isGiven state "no-branch-ngram"
      exclude := valuesOf state "exclude"
      noDispatch := isGiven state "no-dispatch-optimization"
      noReturning := isGiven state "no-returning-execution-path"
      countSurface := isGiven state "count-branch-in-surface-level" }

/-- The n-gram request of the options. -/
def ngramRequest (state : State) : Except Stop Request := do
  let program ← programRequest state
  .ok (.ngram {
    program := program
    entry := valuesOf state "entry"
    includeConstructors := isGiven state "include-ctors"
    mode := ((valueOf? state "mode").bind Mode.ofName?).getD .ngrams
    format := ((valueOf? state "format").bind Format.ofName?).getD .text })

/-- The trace request of the options; the sequence has to be given. -/
def traceRequest (state : State) : Except Stop Request := do
  let program ← programRequest state
  if !isGiven state "seq" then .error .usage
  else .ok (.trace {
    program := program
    sequence := valuesOf state "seq"
    locations := valuesOf state "loc"
    wantsCommon := isGiven state "metric-clat"
    wantsMaxDepth := isGiven state "metric-max-depth"
    wantsUnique := isGiven state "metric-unique-method" })

/-- Reads the options of a request, behind which nothing may follow. -/
def readRequest (options : List OptionSpec) (build : State → Except Stop Request)
    (arguments : List String) : Except Stop Request := do
  let (state, rest) ← readArguments (innerLevel options) .initial arguments
  if rest.isEmpty then build state else .error .usage

/-- The description of the program, or of one of the words that can stand in its place. -/
def describe : List String → Stop
  | [] => .display
  | [word] => if ["ngram", "trace", "help"].contains word then .display else .usage
  | _ => .usage

/-- Reads the arguments of the program. -/
def parse (arguments : List String) : Except Stop Request := do
  let (_, rest) ← readArguments outerLevel .initial arguments
  match rest with
  | "ngram" :: rest => readRequest ngramOptions ngramRequest rest
  | "trace" :: rest => readRequest traceOptions traceRequest rest
  | "help" :: rest => .error (describe rest)
  | _ => .error .usage

end CommandLine

end CallNgrams
