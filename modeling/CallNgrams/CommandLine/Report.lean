import CallNgrams.CommandLine.Request
import CallNgrams.Dump.Load
import CallNgrams.Json.Pretty
import CallNgrams.Selection.MethodTable
import CallNgrams.Trace

/-!
# Reports

A request is answered by a report: the text that is written and, if the work broke off while it was
written, the failure. A failure before the output is opened leaves no report.
-/

namespace CallNgrams

/-- Why a request is not answered. -/
inductive Failure where
  /-- The input cannot be loaded. -/
  | load (failure : LoadFailure)
  /-- The output cannot be opened. -/
  | unwritable (path : String)
  /-- The request itself is in error. -/
  | request (error : Error)
  /-- An error in a part of the work, which is described. -/
  | within (context : String) (error : Error)
deriving DecidableEq, Repr

/-- The message of a failure. -/
def Failure.message : Failure → String
  | .load failure => failure.message
  | .unwritable path => "failed to open " ++ path
  | .request error => error.message
  | .within context _ => context

/-- The error behind a failure. -/
def Failure.cause? : Failure → Option Error
  | .request error | .within _ error => some error
  | _ => none

/-- What is written, and the failure that broke it off. -/
structure Report where
  text : String
  failure : Option Failure
deriving DecidableEq, Repr

namespace Report

/-- A report that is complete. -/
def complete (text : String) : Report :=
  ⟨text, none⟩

/-- A line of a report. -/
def line (text : String) : String :=
  text ++ "\n"

/-- Lines of a report. -/
def lines (texts : List String) : String :=
  String.join (texts.map line)

/-- A count, right-aligned in four columns. -/
def column (count : Nat) : String :=
  let digits := toString count
  String.ofList (List.replicate (4 - digits.length) ' ') ++ digits

/-- The signatures that at least this many classes define are listed by a diagnostic. -/
def widely : Nat := 50

/-- The methods of a program. -/
def signatures (keys : List MethodKey) : String :=
  lines (keys.map MethodKey.text)

/-- The instructions of a method. -/
def bodyText (key : MethodKey) (body : Body) : String :=
  lines (key.text :: body.instructions.map fun (index, instruction) =>
    "  " ++ toString index ++ ": " ++ instruction.text)

/-- The instructions of all methods; a method has to compile before it is written. -/
def bodies (written : String) : List (MethodKey × Body) → Report
  | [] => .complete written
  | (key, body) :: rest =>
    match body.compile none false key with
    | .error e => ⟨written, some (.within ("invalid method body " ++ key.text) e)⟩
    | .ok _ => bodies (written ++ bodyText key body) rest

/-- The number of classes and methods to start from, and the signatures with many definitions. -/
def diagnostic (table : MethodTable) (targets : List MethodKey) : String :=
  lines (["classes: " ++ toString (MethodTable.countByClass targets).length,
    "method bodies: " ++ toString targets.length, "method having many definitions:"] ++
    (table.widelyDefined widely).map fun (signature, count) =>
      "  " ++ column count ++ " " ++ signature)

/-- The options that are in effect. -/
def header (request : NgramRequest) : List String :=
  let program := request.program
  let flags := [(program.allowRepetitive, "--allow-repetitive-ngram"),
    (program.noBranch, "--no-branch-ngram"),
    (program.noDispatch, "--no-dispatch-optimization"),
    (program.noReturning, "--no-returning-execution-path"),
    (program.countSurface, "--count-branch-in-surface-level"),
    (request.includeConstructors, "--include-ctors")]
  ["--ngram-size=" ++ toString program.size, "--max-call-depth=" ++ toString program.maxCallDepth,
    "--max-method-definition=" ++ toString program.maxMethodDefinition] ++
    (flags.filter Prod.fst).map Prod.snd ++
    program.exclude.map (fun pattern => "--exclude=" ++ pattern) ++
    request.entry.map (fun pattern => "--entry=" ++ pattern)

/-- An n-gram, one call on a line, and an empty line. -/
def ngramText (ngram : RenderedNgram) : String :=
  lines (ngram.map (fun step =>
    step.label ++ "\t" ++ step.location ++ "\t" ++ toString step.depth) ++ [""])

/-- The n-grams of all methods behind the options. -/
def ngramsText (request : NgramRequest) (found : List (MethodKey × List RenderedNgram)) : String :=
  lines ((header request).map ("# " ++ ·) ++ [""]) ++
    String.join (found.flatMap fun (_, ngrams) => ngrams.map ngramText)

/-- The n-grams of all methods as JSON. -/
def ngramsJson (found : List (MethodKey × List RenderedNgram)) : String :=
  let step := fun (step : GramStep) => Json.ofFields [("label", .ofString step.label),
    ("location", .ofString step.location), ("depth", .ofNat step.depth)]
  line (Json.array (found.map fun (key, ngrams) => Json.ofFields [("class", .ofString key.owner),
    ("method", .ofString key.signature),
    ("ngrams", .array (ngrams.map fun ngram => .array (ngram.map step)))])).pretty

/-- The metrics that are asked for. -/
def metrics (request : TraceRequest) (traces : List RenderedNgram) : List String :=
  let entry := fun (isWanted : Bool) (name : String) (value : Nat) =>
    if isWanted then [name ++ "=" ++ toString value] else []
  entry request.wantsCommon "metric-clat" (Trace.commonLocations traces).length ++
    entry request.wantsMaxDepth "metric-max-depth" (Trace.maxDepth traces request.locations) ++
    entry request.wantsUnique "metric-unique-method" (Trace.uniqueCount traces request.sequence)

/-- The metrics, the sequence and its traces. -/
def traces (request : TraceRequest) (traces : List RenderedNgram) : String :=
  lines (metrics request traces ++ "ope:" :: request.sequence.map ("  " ++ ·) ++
    traces.flatMap fun trace => "trace:" :: trace.map fun step =>
      "  " ++ step.location ++ " >" ++ toString step.depth)

end Report

end CallNgrams
