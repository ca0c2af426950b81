import TwinTrees.Tree.Remove
import TwinTrees.Verb.Basic

/-!
# The verb `rm`

Removes files, links and empty directories. Each of them must be there when its turn comes.
-/

namespace TwinTrees.Verb

/-- Removes one entry. -/
def removeEntry (env : Environment) (side : Side) (name : String) : Action CommandError Unit := do
  let path := env.resolve side name
  if !(← (Tree.isThere path).named "stat" path) then throw (.notFound path)
  env.write (.remove path)
  let (_, e) ← (Action.ask fun d => d.lookAt path).named "stat" path
  (Action.change fun t d =>
    if e.node.kind = .directory then d.removeDirectory t path else d.removeFile t path).named
      "rm" path

/-- Removes entries. -/
def remove : Verb := fun env arguments => do
  if arguments.isEmpty then throw (.usage .noEntries)
  forEachSided arguments (removeEntry env)

end TwinTrees.Verb
