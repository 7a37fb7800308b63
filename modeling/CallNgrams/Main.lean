import CallNgrams.CommandLine.Run
import CallNgrams.Dump.Archive

/-!
# The program

Reads the input of a request into a tree of files, answers the request and writes the report.
-/

namespace CallNgrams.Main

/-- The description of the command line. -/
def usage : String :=
  Report.lines [
    "Interprocedural call-sequence n-grams over JVM method bodies.",
    "",
    "Usage: call-ngrams [--verbose] [--quiet] [--timing] ngram|trace --input PATH [OPTIONS]",
    "",
    "Both:  [--output PATH] [-n N] [--max-call-depth N] [--max-method-definition N]",
    "       [--allow-repetitive-ngram] [--no-branch-ngram] [-e PATTERN]...",
    "       [--no-dispatch-optimization] [--no-returning-execution-path]",
    "       [--count-branch-in-surface-level]",
    "ngram: [--entry PATTERN]... [--include-ctors] [--format text|json]",
    "       [--mode ngrams|diagnostic|signatures|method-body]",
    "trace: --seq LABEL... [--loc LOCATION]... [-c] [-d] [-u]"]

/-- Reads the entry at a path. In a directory only the dump files are read. -/
partial def readEntry (path : String) (isNamed : Bool) : IO Entry := do
  let place ← IO.FS.realPath path
  if ← place.isDir then
    let found ← place.readDir
    let entries ← found.toList.mapM fun child => do
      return (child.fileName, ← readEntry (Path.join path child.fileName) false)
    return .directory (entries.foldl (fun all (name, entry) => Entry.putNamed name entry all) [])
  else if isNamed || Path.extension? path == some "json" then
    return .ofBytes (← IO.FS.readBinFile path)
  else return .data none

/-- Reads the entry at a path, if there is one. -/
def readInput (path : String) : IO (Option Entry) := do
  try return some (← readEntry path true)
  catch
    | .noFileOrDirectory .. => return none
    | e => throw e

/-- Writes a failure and what is behind it. -/
def writeFailure (failure : Failure) : IO Unit := do
  IO.eprintln ("Error: " ++ failure.message)
  match failure with
  | .within _ e => IO.eprintln ("\nCaused by:\n    " ++ e.message)
  | _ => return

/-- Writes a text to a file or to the standard output. -/
def writeText (file : Option String) (text : String) : IO (Option Failure) := do
  match file with
  | none =>
    IO.print text
    return none
  | some path =>
    try
      IO.FS.writeFile path text
      return none
    catch _ => return some (.unwritable path)

/-- Answers a request; the result is the exit code. -/
def answer (request : Request) : IO UInt32 := do
  let outcome : Option Failure ←
    match request.run (← readInput request.program.input) with
    | .error failure => pure (some failure)
    | .ok report => do
      let failure ← writeText request.outputFile? report.text
      pure (failure <|> report.failure)
  match outcome with
  | none => return 0
  | some failure =>
    writeFailure failure
    return 1

end CallNgrams.Main

/-- Reads the arguments and answers the request that they make. -/
def main (arguments : List String) : IO UInt32 := do
  match CallNgrams.CommandLine.parse arguments with
  | .error .usage =>
    IO.eprint CallNgrams.Main.usage
    return 2
  | .error .display =>
    IO.print CallNgrams.Main.usage
    return 0
  | .ok request => CallNgrams.Main.answer request
