import TwinTrees.Tree.Make
import TwinTrees.Tree.Walk

/-!
# Copying entries and trees

A directory is copied as a directory with the same permission bits, a symbolic link as a link to the
same path, and a file byte for byte into a file that is emptied first. Times are not copied. A tree
is copied from the top, siblings in the order of their names; the names in a directory are read
before the directory itself is copied.
-/

namespace TwinTrees.Tree

/-- The copy of a directory, unless there is a directory already. -/
def copyDirectory (target : Path) (mode : Mode) : Action CommandError Unit :=
  (makeDirectories target mode).named "mkdir" target

/-- The copy of a file. Both are open before the first byte is read, so a file that is copied onto
itself is found empty. -/
def copyFile (target source : Path) (size : Nat) : Action CommandError Unit := do
  let input ← (Action.ask fun d => d.openExisting source).named "open" source
  let copy ← (Action.request fun t d => d.openOrCreate t target fileMode true).named "open" target
  let bytes ← Action.ask fun d => .ok (d.load input)
  Action.change fun t d => .ok (d.append t copy bytes)
  if bytes.size ≠ size then
    throw (.invalidArgument (.wrongCopy target size bytes.size))

/-- Copies an entry. -/
def copyEntry (target source : Path) : Action CommandError Unit := do
  let (_, e) ← (Action.ask fun d => d.lookAt source).named "stat" source
  match e.node with
  | .directory => copyDirectory target e.mode
  | .symlink path =>
    makeParent target
    (Action.change fun t d => d.makeLink t path target).named "symlink" target
  | .file _ bytes =>
    makeParent target
    copyFile target source bytes.size

/-- The names in a directory in increasing order. -/
def sortedNames (names : List (Name × Kind)) : List (Name × Kind) :=
  names.mergeSort fun a b => Text.le a.1 b.1

/-- An error on the way down from `root`. -/
def walkFault (root p : Path) (fault : IoError) : CommandError := .walk root ⟨p, fault⟩

/-- Copies a directory, for which `copySelf` stands, and then what is in it, with so many levels
left. A path gets longer with every level, so the limit on the length of paths also bounds the
depth. -/
def copyLevels (root : Path) : Nat → Path → Path → Action CommandError Unit →
    Action CommandError Unit
  | 0, _, source, copySelf => do
    copySelf
    throw (walkFault root source (.os Errno.nameTooLong))
  | depth + 1, target, source, copySelf => do
    let names ← Action.ask fun d => .ok (d.list source)
    copySelf
    match names with
    | .error fault => throw (walkFault root source fault)
    | .ok names => (sortedNames names).forM fun (n, kind) =>
      let copySelf := copyEntry (inside target n) (inside source n)
      if kind = .directory then copyLevels root depth (inside target n) (inside source n) copySelf
      else copySelf

/-- Copies the entry at `source` and what is below it. If it is a link to a directory, what is below
that directory is copied as well. -/
def copyTree (target source : Path) : Action CommandError Unit := do
  let copySelf := copyEntry (target.join ⟨""⟩) source
  let (_, e) ← (Action.ask fun d => d.lookAt source).mapError (walkFault source source)
  let e ← if e.node.kind = .symlink then
      Prod.snd <$> (Action.ask fun d => d.find true source).mapError (walkFault source source)
    else pure e
  if e.node.kind = .directory then
    copyLevels source pathLimit (target.join ⟨""⟩) source copySelf
  else copySelf

end TwinTrees.Tree
