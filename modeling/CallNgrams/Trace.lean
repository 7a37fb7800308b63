import CallNgrams.Search.Walk

/-!
# Traces

A trace is an n-gram whose labels are a given sequence. Traces are searched from given locations, or
in all methods, and summed up by three metrics.
-/

namespace CallNgrams.Trace

/-- The n-gram size of a request: -1 stands for the length of the sequence, and any other size has
to be that length. -/
def resolveSize (requested : Int) (length : Nat) : Except Error Nat :=
  if length = 0 then .error .emptySequence
  else if requested = -1 then .ok length
  else if requested ≤ 0 then .error (.invalidSize requested)
  else if requested.toNat ≠ length then .error (.lengthMismatch requested.toNat length)
  else .ok length

/-- A method to search, from given indices or, without any, from its start. -/
structure Target where
  method : MethodKey
  indices : List Nat
deriving DecidableEq, Repr

/-- Adds a location to the targets; a method keeps its place, and an index is listed once. -/
def addPoint (point : ProgramPoint) : List Target → List Target
  | [] => [⟨point.method, [point.index]⟩]
  | target :: rest =>
    if target.method = point.method then
      if point.index ∈ target.indices then target :: rest
      else { target with indices := target.indices ++ [point.index] } :: rest
    else target :: addPoint point rest

/-- Reads a location. -/
def readPoint (text : String) : Except Error ProgramPoint :=
  match ProgramPoint.parse? text with
  | some point => .ok point
  | none => .error (.invalidLocation text)

/-- The targets of a list of locations, in the order in which their methods are first named. -/
def readTargets (locations : List String) : Except Error (List Target) :=
  locations.foldlM (fun targets text => (readPoint text).map fun point => addPoint point targets) []

/-- Whether an n-gram has the labels of a sequence. -/
def hasLabels (sequence : List String) (ngram : RenderedNgram) : Bool :=
  ngram.map GramStep.label == sequence

/-- The n-grams of a target, down to a depth. -/
def searchTarget (depth : Nat) (graphs : GraphTable) (policy : DigPolicy)
    (options : SearchOptions) (target : Target) : Except Error NgramSet :=
  match graphs.get? target.method with
  | none => .error (.unknownMethod target.method)
  | some _ =>
    if target.indices.isEmpty then ngramsWithin depth graphs policy options target.method
    else ngramsFromWithin depth graphs policy options target.method target.indices

/-- The first occurrences of the members of a list, in order. -/
def distinct (traces : List RenderedNgram) : List RenderedNgram :=
  let (_, kept) := traces.foldl (fun (seen, kept) trace =>
    if seen.contains trace then (seen, kept) else (seen.insert trace, trace :: kept))
    ((∅ : Std.TreeSet RenderedNgram), [])
  kept.reverse

/-- The traces of a sequence in the given targets, or in all methods if there are none. A trace that
several targets have is listed once, where it is met first. -/
def find (graphs : GraphTable) (policy : DigPolicy) (options : SearchOptions)
    (sequence : List String) (targets : List Target) : Except Error (List RenderedNgram) := do
  let targets := if targets.isEmpty then graphs.keys.map fun key => ⟨key, []⟩ else targets
  let depth := depthLimit graphs options
  let found ← targets.mapM fun target => do
    let ngrams ← searchTarget depth graphs policy options target
    .ok (ngrams.render.flatten.filter (hasLabels sequence))
  .ok (distinct found.flatten)

/-- The locations that every trace visits, in ascending order. -/
def commonLocations : List RenderedNgram → List String
  | [] => []
  | first :: rest =>
    let common := (first.map GramStep.location).filter fun location =>
      rest.all fun trace => trace.any fun step => step.location == location
    (common.mergeSort fun a b => (compare a b).isLE).eraseReps

/-- The depth of the deepest call of the traces; without traces, the greatest depth that is noted
at a location. -/
def maxDepth (traces : List RenderedNgram) (locations : List String) : Nat :=
  let depths :=
    if traces.isEmpty then locations.filterMap ProgramPoint.depth?
    else traces.flatMap fun trace => trace.map GramStep.depth
  depths.foldl max 0

/-- The number of different labels of the first trace, or of the sequence without traces. -/
def uniqueCount (traces : List RenderedNgram) (sequence : List String) : Nat :=
  match traces with
  | trace :: _ => (trace.map GramStep.label).eraseDups.length
  | [] => sequence.eraseDups.length

end CallNgrams.Trace
