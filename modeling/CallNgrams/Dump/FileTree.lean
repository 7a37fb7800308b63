import CallNgrams.Text.Cut

/-!
# File trees

Inputs are looked up in a tree of directories. A path is a text with slashes between its parts;
empty parts and single dots stay in place, and a double dot leads back to the parent directory.
-/

namespace CallNgrams

/-- A file or a directory. -/
inductive Entry where
  /-- A file; it has no text if its bytes are not UTF-8. -/
  | data (text : Option String)
  /-- An archive, with the texts of its members by name. -/
  | archive (members : List (String × Option String))
  /-- A directory, with its entries in ascending order of their names. -/
  | directory (entries : List (String × Entry))
deriving Repr

namespace Path

/-- The parts of a path between its slashes. -/
def parts (path : String) : List String :=
  path.splitOn "/"

/-- Whether a path starts outside the tree. -/
def isAbsolute (path : String) : Bool :=
  path.toList.head? == some '/'

/-- Whether a path can be looked up: it is not empty, holds no zero character and is at most 4095
bytes long. -/
def isUsable (path : String) : Bool :=
  path != "" && !path.toList.contains '\x00' && path.utf8ByteSize < 4096

/-- Whether a part of a path can name a new file: it leads somewhere else and is at most 255 bytes
long. -/
def isFileName (part : String) : Bool :=
  part != "" && part != "." && part != ".." && part.utf8ByteSize < 256

/-- The parts that lead somewhere else. -/
def steps (path : String) : List String :=
  (parts path).filter fun part => part != "" && part != "."

/-- The path of an entry of a directory. -/
def join (path name : String) : String :=
  if path.toList.getLast? == some '/' then path ++ name else path ++ "/" ++ name

/-- What follows the last dot of the file name, unless that dot is its first character. -/
def extension? (path : String) : Option String :=
  match (steps path).getLast? with
  | none => none
  | some name =>
    if name == ".." then none
    else
      match Text.cutLast '.' name.toList with
      | some (stem, extension) => if stem.isEmpty then none else some (String.ofList extension)
      | none => none

end Path

namespace Entry

/-- Whether an entry is a directory. -/
def isDirectory : Entry → Bool
  | .directory _ => true
  | _ => false

/-- The entries of a directory; a file has none. -/
def entries : Entry → List (String × Entry)
  | .directory entries => entries
  | _ => []

/-- Puts an entry under a name, in place of the one it may have. -/
def putNamed (name : String) (entry : Entry) : List (String × Entry) → List (String × Entry)
  | [] => [(name, entry)]
  | (other, found) :: rest =>
    if name < other then (name, entry) :: (other, found) :: rest
    else if name = other then (name, entry) :: rest
    else (other, found) :: putNamed name entry rest

/-- Puts an entry at the end of a list of steps; directories are made on the way. An empty
directory leaves a directory that exists as it is. -/
def put (found entry : Entry) : List String → Entry
  | [] =>
    match entry, found with
    | .directory [], .directory _ => found
    | _, _ => entry
  | step :: steps =>
    let inner := (found.entries.lookup step).getD (.directory [])
    .directory (putNamed step (put inner entry steps) found.entries)

/-- Puts an entry behind steps from a place. Every place that a further step leaves is made a
directory, also if the step is a double dot, which leads back. -/
def putAlong (entry : Entry) : Entry → List String → List String → Entry
  | root, place, [] => root.put entry place
  | root, place, step :: steps =>
    let further := if step == ".." then place.dropLast else place ++ [step]
    putAlong entry (root.put (.directory []) place) further steps

/-- Puts an entry at a path. -/
def insert (root : Entry) (path : String) (entry : Entry) : Entry :=
  putAlong entry root [] (Path.steps path)

/-- Follows parts of a path; the parents of the entry, nearest first, serve the double dots. -/
def follow (entry : Entry) (parents : List Entry) : List String → Option Entry
  | [] => some entry
  | part :: rest =>
    match entry with
    | .directory entries =>
      if part == "" || part == "." then follow entry parents rest
      else if part == ".." then
        match parents with
        | parent :: parents => follow parent parents rest
        | [] => none
      else
        match entries.lookup part with
        | some inner => follow inner (entry :: parents) rest
        | none => none
    | _ => none

/-- The entry at a path. -/
def find? (root : Entry) (path : String) : Option Entry :=
  if Path.isAbsolute path || !Path.isUsable path then none
  else root.follow [] (Path.parts path)

/-- The text of the file at a path. -/
def textAt? (root : Entry) (path : String) : Option String :=
  match root.find? path with
  | some (.data text) => text
  | _ => none

/-- Whether a file can be written at a path: its directory exists, and it is no directory. -/
def canWrite (root : Entry) (path : String) : Bool :=
  let parts := Path.parts path
  let name := (parts.getLast?).getD ""
  let parent := root.follow [] parts.dropLast
  !Path.isAbsolute path && Path.isUsable path && Path.isFileName name &&
    parent.any isDirectory && !((root.find? path).any isDirectory)

end Entry

end CallNgrams
