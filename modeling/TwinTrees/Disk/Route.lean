import TwinTrees.Disk.Basic
import TwinTrees.IoError

/-!
# From paths to locations

A path is followed step by step from the root, or from the working directory if it is relative. A
symbolic link on the way is replaced by its own path, at most forty times. Requests that look at an
entry also follow a link at the end of the path; requests that make or remove a name do not. A
slash at the end asks for a directory, and so follows a link as well.

`Disk.target` says where a path leads: to a directory, if the path ends in `.`, `..` or at the
root, or to a name in a directory, whether or not there is an entry of that name.
-/

namespace TwinTrees

/-- One step along a path. -/
inductive Step
  | here
  | up
  | name (n : Name)
  deriving DecidableEq, Repr

/-- The step between two slashes; nothing between them is no step. -/
def Step.of? (segment : List Char) : Option Step :=
  if segment.isEmpty then none
  else if segment = ['.'] then some .here
  else if segment = ['.', '.'] then some .up
  else some (.name segment)

/-- The steps of a path. -/
def Path.steps (p : Path) : List Step :=
  (Text.splitAll '/' p.text.toList).filterMap Step.of?

/-- Whether the path ends in a slash. -/
def Path.endsInSlash (p : Path) : Bool :=
  p.text.toList.getLast? == some '/'

/-- What a path ends in, if not in a name. -/
inductive Ending
  | root
  | here
  | up
  deriving DecidableEq, Repr

/-- Where a path leads. -/
inductive Target
  | directory (location : Location) (ending : Ending)
  | name (dir : Location) (name : Name) (slash : Bool)
  deriving DecidableEq, Repr

/-- What to do with a link at the end of a path. -/
inductive LastLink
  | keep
  | follow
  /-- Follow it unless a slash comes after it. -/
  | followBare
  deriving DecidableEq, Repr

def LastLink.follows (l : LastLink) (slash : Bool) : Bool :=
  match l with
  | keep => false
  | follow => true
  | followBare => !slash

/-- The most bytes that a name can have. -/
def nameLimit : Nat := 255

/-- One more than the most bytes that a path can have. -/
def pathLimit : Nat := 4096

/-- The number of links that can be followed on one way. -/
def linkLimit : Nat := 40

def isTooLong (n : Name) : Bool := nameLimit < Text.byteLength n

namespace Disk

/-- The entry of a name in a directory. -/
def child? (d : Disk) (dir : Location) (n : Name) : Except Errno (Option Entry) :=
  if isTooLong n then .error Errno.nameTooLong else .ok (d.get? (dir ++ [n]))

/-- Takes the steps of a path from the directory `current`. Where a link has to be followed, the
way goes on with `onLink`, which gets the directory of the link, its path, and the steps that
remain. -/
def takeSteps (d : Disk) (last : LastLink) (slash : Bool)
    (onLink : Location → Path → List Step → Except Errno Target) :
    Location → Ending → List Step → Except Errno Target
  | current, ending, [] => .ok (.directory current ending)
  | current, _, .here :: rest => takeSteps d last slash onLink current .here rest
  | current, _, .up :: rest => takeSteps d last slash onLink current.dropLast .up rest
  | current, _, .name n :: rest =>
    if rest = [] ∧ last.follows slash = false then .ok (.name current n slash)
    else
      match d.child? current n with
      | .error e => .error e
      | .ok none => if rest = [] then .ok (.name current n slash) else .error Errno.noEntry
      | .ok (some e) =>
        match e.node with
        | .symlink target => onLink current target rest
        | .directory =>
          if rest = [] then .ok (.name current n slash)
          else takeSteps d last slash onLink (current ++ [n]) .here rest
        | .file .. =>
          if rest = [] then .ok (.name current n slash) else .error Errno.notDirectory

/-- Follows a path and then `rest` from a directory, with so many links left to follow. -/
def walk (d : Disk) (last : LastLink) (links : Nat) (current : Location) (p : Path)
    (rest : List Step) (slash : Bool) : Except Errno Target :=
  d.takeSteps last (slash || (rest.isEmpty && p.endsInSlash))
    (fun dir target rest' =>
      match links with
      | 0 => .error Errno.tooManyLinks
      | links + 1 =>
        walk d last links dir target rest' (slash || (rest.isEmpty && p.endsInSlash)))
    (if p.isAbsolute then [] else current) .root (p.steps ++ rest)

/-- Where a path leads. -/
def target (d : Disk) (last : LastLink) (p : Path) : Except IoError Target :=
  if p.hasNul then .error .nulInPath
  else if p.text.isEmpty then .error (.os Errno.noEntry)
  else if pathLimit ≤ Text.byteLength p.text.toList then .error (.os Errno.nameTooLong)
  else (d.walk last linkLimit d.workingDirectory p [] false).mapError .os

/-- The location and the entry that a path names. A link at the end is followed if `follow` is
set or a slash comes after it. -/
def find (d : Disk) (follow : Bool) (p : Path) : Except IoError (Location × Entry) := do
  match ← d.target (if follow || p.endsInSlash then .follow else .keep) p with
  | .directory l _ =>
    match d.get? l with
    | some e => return (l, e)
    | none => throw (.os Errno.noEntry)
  | .name dir n slash =>
    match ← (d.child? dir n).mapError .os with
    | none => throw (.os Errno.noEntry)
    | some e =>
      if slash && e.node.kind != .directory then throw (.os Errno.notDirectory)
      else return (dir ++ [n], e)

end Disk

end TwinTrees
