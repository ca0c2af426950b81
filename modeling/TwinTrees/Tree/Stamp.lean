import TwinTrees.Tree.Walk
import TwinTrees.World

/-!
# Giving whole trees one time

All files below the roots are given the time first and then all directories, so that nothing that is
done to a file can change the time of its directory afterwards. Symbolic links are passed over.
-/

namespace TwinTrees.Tree

/-- Gives an entry a time of access and modification, through links. -/
def stamp (time : Time) (p : Path) : Action CommandError Unit :=
  (Action.change fun _ d => d.setTimes p time).named "adjtime" p

/-- Gives the entries of one kind at and below a root a time. -/
def stampKind (time : Time) (kind : Kind) (root : Path) : Action CommandError Unit := do
  let visits ← Action.ask fun d => .ok (d.walkDown root)
  visits.forM fun
    | .error e => throw (.walk root e)
    | .ok (p, k) => if k = kind then stamp time p else return

/-- Gives the files and directories at and below the roots a time. -/
def stampTrees (roots : List Path) (time : Time) : Action CommandError Unit := do
  roots.forM (stampKind time .file)
  roots.forM (stampKind time .directory)

end TwinTrees.Tree
