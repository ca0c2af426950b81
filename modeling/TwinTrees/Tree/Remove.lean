import TwinTrees.World

/-!
# Looking for entries and removing trees

A tree is removed with all that is in it. Links are removed and never followed.
-/

namespace TwinTrees.Tree

/-- Whether there is an entry at the path, be it a link that leads nowhere. -/
def isThere (p : Path) : Action IoError Bool :=
  Action.ask fun d =>
    match d.lookAt p with
    | .ok _ => .ok true
    | .error fault => if fault = .os Errno.noEntry then .ok false else .error fault

/-- Removes the directory at a location, which the path names, with all that is in it. -/
def removeDirectory (p : Path) (l : Location) : Action IoError Unit := do
  Action.change fun t d => .ok (d.clear t l)
  match ← (Action.change fun t d => d.removeDirectory t p).attempt with
  | .ok () => return
  | .error fault => if fault = .os Errno.noEntry then return else throw fault

/-- Removes a directory with all that is in it, or a symbolic link. It is fine if there is nothing
at the path, but a file is not removed. -/
def remove (p : Path) : Action IoError Unit := do
  match ← (Action.ask fun d => d.lookAt p).attempt with
  | .error fault => if fault = .os Errno.noEntry then return else throw fault
  | .ok (l, e) =>
    match e.node with
    | .symlink _ => Action.change fun t d => d.removeFile t p
    | .file .. => throw (.os Errno.notDirectory)
    | .directory => removeDirectory p l

end TwinTrees.Tree
