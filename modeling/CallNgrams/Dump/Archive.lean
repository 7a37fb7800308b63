import CallNgrams.Dump.FileTree

/-!
# Stored archives

An archive ends with a record that points to its directory, and the directory has one record for
each member. Members are read if they are stored as they are; a compressed one has no text.
-/

namespace CallNgrams.Archive

/-- A little-endian number of some bytes; bytes behind the end count as zero. -/
def number (bytes : ByteArray) (start : Nat) : Nat → Nat
  | 0 => 0
  | width + 1 => (bytes[start]?.getD 0).toNat + 256 * number bytes (start + 1) width

/-- The text of a range of bytes, if it is UTF-8. -/
def textAt (bytes : ByteArray) (start length : Nat) : Option String :=
  String.fromUTF8? (bytes.extract start (start + length))

/-- The bytes that start the last record. -/
def endMark : Nat := 0x06054b50

/-- The bytes that start a record of the directory. -/
def directoryMark : Nat := 0x02014b50

/-- The bytes that start a member. -/
def memberMark : Nat := 0x04034b50

/-- The size of the last record without its comment. -/
def endSize : Nat := 22

/-- The last record that starts at a position below a bound. -/
def endRecord? (bytes : ByteArray) : Nat → Option Nat
  | 0 => none
  | start + 1 =>
    if number bytes start 4 = endMark then some start else endRecord? bytes start

/-- The text of a member that starts at a position: its data follow a name and an extra field. -/
def memberText? (bytes : ByteArray) (start method length : Nat) : Option String :=
  if method = 0 ∧ number bytes start 4 = memberMark then
    textAt bytes (start + 30 + number bytes (start + 26) 2 + number bytes (start + 28) 2) length
  else none

/-- The members of a number of directory records, the first of which starts at a position. -/
def readDirectory? (bytes : ByteArray) (start : Nat) : Nat → Option (List (String × Option String))
  | 0 => some []
  | count + 1 =>
    if number bytes start 4 = directoryMark then
      let nameSize := number bytes (start + 28) 2
      let next := start + 46 + nameSize + number bytes (start + 30) 2 + number bytes (start + 32) 2
      let text := memberText? bytes (number bytes (start + 42) 4) (number bytes (start + 10) 2)
        (number bytes (start + 20) 4)
      match textAt bytes (start + 46) nameSize, readDirectory? bytes next count with
      | some name, some rest => some ((name, text) :: rest)
      | _, _ => none
    else none

/-- The members of an archive, in the order of its directory. -/
def members? (bytes : ByteArray) : Option (List (String × Option String)) :=
  match endRecord? bytes (bytes.size + 1 - endSize) with
  | none => none
  | some start =>
    readDirectory? bytes (number bytes (start + 16) 4) (number bytes (start + 10) 2)

end CallNgrams.Archive

namespace CallNgrams.Entry

/-- The file that some bytes make: an archive, if they can be read as one. -/
def ofBytes (bytes : ByteArray) : Entry :=
  match Archive.members? bytes with
  | some members => .archive members
  | none => .data (String.fromUTF8? bytes)

end CallNgrams.Entry
