import TwinTrees.Disk.Route

/-!
# Requests on the tree of files

The requests that an operating system answers: look at an entry, list a directory, make, open,
write and remove entries, change their bits and times. A request either is done as a whole or fails
and changes nothing. Making and removing an entry modifies its directory. New entries lose the
permission bits in `umask`; the requests are made by the superuser, so permission bits forbid
nothing.
-/

namespace TwinTrees

/-- The permission bits that new entries do not get. -/
def umask : Mode := 0o022

/-- The bits that a new directory can be given. -/
def directoryModeMask : Mode := 0o1777 ^^^ umask

/-- The bits that a new file can be given. -/
def fileModeMask : Mode := 0o7777 ^^^ umask

/-- The bit that a directory hands down to the directories made in it. -/
def inheritedBit : Mode := 0o2000

namespace Disk

/-- The location and the entry that a path names, a link at its end not followed. -/
def lookAt (d : Disk) (p : Path) : Except IoError (Location × Entry) := d.find false p

/-- Whether the path names a directory, perhaps through links. -/
def isDirectory (d : Disk) (p : Path) : Bool :=
  match d.find true p with
  | .ok (_, e) => e.node.kind == .directory
  | .error _ => false

/-- The names in a directory, with the kinds of their entries. -/
def list (d : Disk) (p : Path) : Except IoError (List (Name × Kind)) := do
  let (l, e) ← d.find true p
  if e.node.kind = .directory then return d.names l else throw (.os Errno.notDirectory)

/-- The bytes of a file. -/
def readBytes (d : Disk) (p : Path) : Except IoError Bytes := do
  let (_, e) ← d.find true p
  match e.node with
  | .file _ bytes => return bytes
  | _ => throw (.os Errno.isDirectory)

/-- The text that a file holds. -/
def readText (d : Disk) (p : Path) : Except IoError String := do
  let bytes ← d.readBytes p
  match String.fromUTF8? ⟨bytes⟩ with
  | some text => return text
  | none => throw .notText

/-- The disk with a new entry in a directory. -/
def addEntry (d : Disk) (now : Time) (dir : Location) (n : Name) (node : Node) (mode : Mode) :
    Disk :=
  (d.put (dir ++ [n]) ⟨node, mode, now, now⟩).touch dir now

/-- The disk with a new empty file in a directory. -/
def addFile (d : Disk) (now : Time) (dir : Location) (n : Name) (mode : Mode) : Disk :=
  { d.addEntry now dir n (.file d.nextId #[]) (mode &&& fileModeMask) with nextId := d.nextId + 1 }

/-- The disk without an entry of a directory. -/
def removeEntry (d : Disk) (now : Time) (dir : Location) (n : Name) : Disk :=
  (d.erase (dir ++ [n])).touch dir now

/-- The bytes of an open file; none if it is no longer in its place. -/
def load (d : Disk) (f : OpenFile) : Bytes :=
  match (d.get? f.location).map Entry.node with
  | some (.file id bytes) => if id = f.id then bytes else #[]
  | _ => #[]

/-- The disk with other bytes in an open file, if it still is in its place. -/
def store (d : Disk) (now : Time) (f : OpenFile) (bytes : Bytes) : Disk :=
  d.update f.location fun e =>
    match e.node with
    | .file id _ =>
      if id = f.id then { e with node := .file id bytes, modified := now } else e
    | _ => e

/-- The disk with more bytes at the end of an open file. -/
def append (d : Disk) (now : Time) (f : OpenFile) (bytes : Bytes) : Disk :=
  d.store now f (d.load f ++ bytes)

/-- The bits of a directory made in `dir`. -/
def directoryMode (d : Disk) (dir : Location) (mode : Mode) : Mode :=
  (mode &&& directoryModeMask) |||
    (((d.get? dir).map Entry.mode).getD 0 &&& inheritedBit)

/-- Makes a directory. -/
def makeDirectory (d : Disk) (now : Time) (p : Path) (mode : Mode) : Except IoError Disk := do
  match ← d.target .keep p with
  | .directory .. => throw (.os Errno.alreadyExists)
  | .name dir n _ =>
    match ← (d.child? dir n).mapError .os with
    | some _ => throw (.os Errno.alreadyExists)
    | none => return d.addEntry now dir n .directory (d.directoryMode dir mode)

/-- Makes a symbolic link to `target`. -/
def makeLink (d : Disk) (now : Time) (target p : Path) : Except IoError Disk := do
  if target.hasNul || p.hasNul then throw .nulInPath
  if target.text.isEmpty then throw (.os Errno.noEntry)
  if pathLimit ≤ Text.byteLength target.text.toList then throw (.os Errno.nameTooLong)
  match ← d.target .keep p with
  | .directory .. => throw (.os Errno.alreadyExists)
  | .name dir n slash =>
    match ← (d.child? dir n).mapError .os with
    | some _ => throw (.os Errno.alreadyExists)
    | none =>
      if slash then throw (.os Errno.noEntry)
      else return d.addEntry now dir n (.symlink target) 0o777

/-- Makes a file that is not there yet. -/
def createNew (d : Disk) (now : Time) (p : Path) (mode : Mode) :
    Except IoError (OpenFile × Disk) := do
  match ← d.target .keep p with
  | .directory .. => throw (.os Errno.alreadyExists)
  | .name dir n slash =>
    if slash then throw (.os Errno.isDirectory)
    match ← (d.child? dir n).mapError .os with
    | some _ => throw (.os Errno.alreadyExists)
    | none => return (⟨dir ++ [n], d.nextId⟩, d.addFile now dir n mode)

/-- Opens a file for writing and makes it if it is not there. The bytes of a file that is there are
kept or removed. -/
def openOrCreate (d : Disk) (now : Time) (p : Path) (mode : Mode) (truncate : Bool) :
    Except IoError (OpenFile × Disk) := do
  match ← d.target .followBare p with
  | .directory .. => throw (.os Errno.isDirectory)
  | .name dir n slash =>
    if slash then throw (.os Errno.isDirectory)
    match ← (d.child? dir n).mapError .os with
    | none => return (⟨dir ++ [n], d.nextId⟩, d.addFile now dir n mode)
    | some e =>
      match e.node with
      | .directory => throw (.os Errno.isDirectory)
      | .symlink _ => throw (.os Errno.tooManyLinks)
      | .file id _ =>
        return (⟨dir ++ [n], id⟩, if truncate then d.store now ⟨dir ++ [n], id⟩ #[] else d)

/-- Opens a file that is there for reading and writing. -/
def openExisting (d : Disk) (p : Path) : Except IoError OpenFile := do
  let (l, e) ← d.find true p
  match e.node with
  | .file id _ => return ⟨l, id⟩
  | _ => throw (.os Errno.isDirectory)

/-- Gives an entry another time of access and of modification. -/
def setTimesAt (d : Disk) (l : Location) (t : Time) : Disk :=
  d.update l fun e => { e with accessed := t, modified := t }

/-- Gives the entry that a path names, perhaps through links, another time. -/
def setTimes (d : Disk) (p : Path) (t : Time) : Except IoError Disk := do
  let (l, _) ← d.find true p
  return d.setTimesAt l t

/-- Gives the entry that a path names, perhaps through links, other permission bits. -/
def setMode (d : Disk) (p : Path) (mode : Mode) : Except IoError Disk := do
  let (l, _) ← d.find true p
  return d.update l fun e => { e with mode }

/-- Removes an entry that is not a directory. -/
def removeFile (d : Disk) (now : Time) (p : Path) : Except IoError Disk := do
  match ← d.target .keep p with
  | .directory .. => throw (.os Errno.isDirectory)
  | .name dir n slash =>
    match ← (d.child? dir n).mapError .os with
    | none => throw (.os Errno.noEntry)
    | some e =>
      if e.node.kind = .directory then throw (.os Errno.isDirectory)
      if slash then throw (.os Errno.notDirectory)
      return d.removeEntry now dir n

/-- Removes an empty directory. -/
def removeDirectory (d : Disk) (now : Time) (p : Path) : Except IoError Disk := do
  match ← d.target .keep p with
  | .directory _ .root => throw (.os Errno.busy)
  | .directory _ .here => throw (.os Errno.invalid)
  | .directory _ .up => throw (.os Errno.notEmpty)
  | .name dir n _ =>
    match ← (d.child? dir n).mapError .os with
    | none => throw (.os Errno.noEntry)
    | some e =>
      if e.node.kind ≠ .directory then throw (.os Errno.notDirectory)
      if (d.names (dir ++ [n])).isEmpty then return d.removeEntry now dir n
      throw (.os Errno.notEmpty)

/-- Empties a directory. It is modified if there was something in it. -/
def clear (d : Disk) (now : Time) (l : Location) : Disk :=
  if (d.names l).isEmpty then d else (d.eraseBelow l).touch l now

end Disk

end TwinTrees
