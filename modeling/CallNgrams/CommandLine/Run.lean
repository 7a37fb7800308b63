import CallNgrams.CommandLine.Report
import CallNgrams.Search.Numbered

/-!
# Answering requests

The order of the work decides which of several failures is reported. An n-gram request checks its
size, loads the input and opens the output before anything else; a trace request opens the output
last.
-/

namespace CallNgrams

namespace ProgramRequest

/-- The search options of a request with a resolved size. -/
def searchOptions (request : ProgramRequest) (size : Nat) : SearchOptions where
  size := size
  maxCallDepth := request.maxCallDepth
  allowRepetitive := request.allowRepetitive
  noBranch := request.noBranch
  noReturning := request.noReturning
  useUndigged := request.noDispatch
  countSurface := request.countSurface

/-- Loads the input of a request, which has to exist. -/
def load (request : ProgramRequest) (input : Option Entry) : Except Failure Collection :=
  match input with
  | none => .error (.load (.notFound request.input))
  | some entry => (Collection.load request.input (some entry)).mapError .load

/-- Compiles the selected methods. The hierarchy knows all methods of the program. -/
def compile (request : ProgramRequest) (collection : Collection) (all selected : MethodTable) :
    Except Failure GraphTable :=
  let hierarchy :=
    if request.noDispatch then none
    else some (ClassHierarchy.ofTables all.declared collection.direct libraryHelperCalls)
  (GraphTable.compileAll hierarchy (!request.allowRepetitive) selected.toList).mapError
    (.within "failed to compile method bodies")

/-- The table without the classes that the request excludes. -/
def withoutExcluded (request : ProgramRequest) (table : MethodTable) : MethodTable :=
  table.withoutClasses (request.exclude.map ClassPattern.ofText)

end ProgramRequest

namespace NgramRequest

/-- The size of the n-grams, which has to be positive. -/
def size (request : NgramRequest) : Except Failure Nat :=
  if 0 < request.program.size then .ok request.program.size.toNat
  else .error (.request (.invalidSize request.program.size))

/-- The methods that are left to search. -/
def select (request : NgramRequest) (all : MethodTable) : MethodTable :=
  let table := request.program.withoutExcluded all
  let table := if request.includeConstructors then table else table.withoutConstructors
  table.limitDefinitions request.program.maxMethodDefinition

/-- The n-grams of the methods that were compiled, down to a depth. A configuration error only
leaves its method out. -/
def search (depth : Nat) (graphs : GraphTable) (options : SearchOptions) :
    List MethodKey → Except Failure (List (MethodKey × List RenderedNgram))
  | [] => .ok []
  | key :: rest =>
    match graphs.get? key with
    | none => search depth graphs options rest
    | some _ =>
      match Search.Numbered.ngramsWithin depth graphs commonObjectMethods options key with
      | .ok found => do
        let others ← search depth graphs options rest
        .ok ((key, found.render.flatten) :: others)
      | .error e =>
        if e.isConfiguration then search depth graphs options rest
        else .error (.within ("failed to generate n-grams for " ++ key.text) e)

/-- The methods that are searched: those left in the table that match an entry pattern. -/
def targets (request : NgramRequest) (selected : MethodTable) : List MethodKey :=
  selected.targets (request.entry.map ClassPattern.ofText)

/-- The n-grams of a program as they are written. -/
def ngramText (request : NgramRequest) (size : Nat) (collection : Collection)
    (all : MethodTable) : Except Failure String := do
  let selected := request.select all
  let graphs ← request.program.compile collection all selected
  let options := request.program.searchOptions size
  let found ← search (depthLimit graphs options) graphs options (request.targets selected)
  match request.format with
  | .text => .ok (Report.ngramsText request found)
  | .json => .ok (Report.ngramsJson found)

/-- The report on a loaded program. -/
def report (request : NgramRequest) (size : Nat) (collection : Collection) : Report :=
  let all := MethodTable.ofBodies collection.bodies.toList
  match request.mode with
  | .signatures => .complete (Report.signatures collection.bodies.keys)
  | .methodBody => Report.bodies "" collection.bodies.toList
  | .diagnostic =>
    let selected := request.select all
    .complete (Report.diagnostic selected (request.targets selected))
  | .ngrams =>
    match request.ngramText size collection all with
    | .ok text => .complete text
    | .error failure => ⟨"", some failure⟩

/-- Answers a request, given the entry at its input path. -/
def run (request : NgramRequest) (input : Option Entry) : Except Failure Report := do
  let size ← request.size
  let collection ← request.program.load input
  .ok (request.report size collection)

end NgramRequest

namespace TraceRequest

/-- Answers a request, given the entry at its input path. -/
def run (request : TraceRequest) (input : Option Entry) : Except Failure Report := do
  let program := request.program
  let size ← (Trace.resolveSize program.size request.sequence.length).mapError .request
  let targets ← (Trace.readTargets request.locations).mapError .request
  let collection ← program.load input
  let all := MethodTable.ofBodies collection.bodies.toList
  let selected := (program.withoutExcluded all).limitDefinitions program.maxMethodDefinition
  let graphs ← program.compile collection all selected
  let traces ← (Trace.find graphs commonObjectMethods (program.searchOptions size)
    request.sequence targets).mapError (.within "failed to expand traces")
  .ok (.complete (Report.traces request traces))

end TraceRequest

namespace Request

/-- Answers a request, given the entry at its input path. -/
def run (input : Option Entry) : Request → Except Failure Report
  | .ngram request => request.run input
  | .trace request => request.run input

/-- Whether an output path stands for the standard output. -/
def isStandardOutput (path : String) : Bool :=
  !Path.isAbsolute path && (Path.parts path).head? == some "-" && Path.steps path == ["-"]

/-- The file that the report is written to, if it is not the standard output. -/
def outputFile? (request : Request) : Option String :=
  request.program.output.filter fun path => !isStandardOutput path

/-- Answers a request in a tree of files: the text at the output afterwards, and the failure, if
there is one. A run that fails before it opens the output leaves a file there as it was, and
nothing on the standard output. -/
def runIn (root : Entry) (request : Request) : Option String × Option Failure :=
  match request.run (root.find? request.program.input), request.outputFile? with
  | .ok report, none => (some report.text, report.failure)
  | .error failure, none => (none, some failure)
  | .ok report, some path =>
    if root.canWrite path then (some report.text, report.failure)
    else (root.textAt? path, some (.unwritable path))
  | .error failure, some path => (root.textAt? path, some failure)

end Request

end CallNgrams
