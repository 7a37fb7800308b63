import CallNgrams.Dump.Collect
import CallNgrams.Dump.FileTree
import CallNgrams.Dump.Reader

/-!
# Loading programs

A program is loaded from a dump file, from an archive of dumps or from a directory. Directories are
searched for dump files in ascending order of the paths; other files in them are passed over.
-/

namespace CallNgrams

/-- Why an input cannot be loaded. -/
inductive LoadFailure where
  | notFound (path : String)
  | unsupported (path : String)
  | unreadable (path : String)
  | unopenable (path : String)
  | notArchive (path : String)
  | notDump (path : String)
deriving DecidableEq, Repr

/-- The message of a failure. -/
def LoadFailure.message : LoadFailure → String
  | .notFound path => "input not found: " ++ path
  | .unsupported path => "unsupported input file: " ++ path
  | .unreadable path => "failed to read " ++ path
  | .unopenable path => "failed to open " ++ path
  | .notArchive path => "failed to read " ++ path
  | .notDump path => "failed to parse " ++ path

namespace Load

/-- Reads a dump from the text at a path. -/
def dumpAt (path : String) (text : Option String) : Except LoadFailure ProgramDump :=
  match text.bind Dump.parse? with
  | some dump => .ok dump
  | none => .error (.notDump path)

/-- Reads the dump of a file. -/
def fileDump (path : String) : Entry → Except LoadFailure ProgramDump
  | .data text => dumpAt path text
  | _ => .error (.notDump path)

mutual

/-- The dumps of an entry that was met in a directory. An entry with a path that is too long to be
looked up counts as a file that cannot be read. -/
def nestedDumps (path : String) : Entry → Except LoadFailure (List ProgramDump)
  | .directory entries =>
    if Path.isUsable path then entryDumps path entries
    else if Path.extension? path == some "json" then .error (.unreadable path)
    else .ok []
  | file =>
    if Path.extension? path != some "json" then .ok []
    else if Path.isUsable path then (fileDump path file).map ([·])
    else .error (.unreadable path)

/-- The dumps of the entries of a directory, one entry after the other. -/
def entryDumps (path : String) : List (String × Entry) → Except LoadFailure (List ProgramDump)
  | [] => .ok []
  | (name, entry) :: rest => do
    let first ← nestedDumps (Path.join path name) entry
    let others ← entryDumps path rest
    .ok (first ++ others)

end

/-- The members of an archive that hold dumps, in ascending order of their names. Of several
members of a name the last one counts. -/
def dumpMembers (members : List (String × Option String)) : List (String × Option String) :=
  let named := members.foldl (fun named (name, text) => named.insert name text)
    (∅ : Std.TreeMap String (Option String))
  named.toList.filter fun member => ".json".toList.isSuffixOf member.1.toList

/-- The dumps of an archive. -/
def archiveDumps (path : String) (members : List (String × Option String)) :
    Except LoadFailure (List ProgramDump) :=
  (dumpMembers members).mapM fun (name, text) => dumpAt (path ++ ":" ++ name) text

/-- The dumps of an input that was named explicitly. -/
def inputDumps (path : String) (entry : Option Entry) : Except LoadFailure (List ProgramDump) :=
  match entry with
  | some (.directory entries) => entryDumps path entries
  | _ =>
    if Path.extension? path == some "json" then
      match entry with
      | some file => (fileDump path file).map ([·])
      | none => .error (.unreadable path)
    else if Path.extension? path == some "zip" then
      match entry with
      | some (.archive members) => archiveDumps path members
      | some _ => .error (.notArchive path)
      | none => .error (.unopenable path)
    else .error (.unsupported path)

end Load

/-- Loads an input, given the entry at its path. -/
def Collection.load (path : String) (entry : Option Entry) : Except LoadFailure Collection :=
  (Load.inputDumps path entry).map Collection.ofDumps

end CallNgrams
