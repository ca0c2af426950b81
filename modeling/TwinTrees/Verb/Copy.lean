import TwinTrees.Tree.Copy
import TwinTrees.Verb.Basic

/-!
# The verb `clone`

Copies the left side to the right: all of it, or the named entries with all that is below them.
-/

namespace TwinTrees.Verb

/-- Copies one entry from the left side to the right, with all that is below it if it is a
directory. -/
def copyNamed (env : Environment) (name : String) : Action CommandError Unit := do
  Action.ask fun _ => requireRelative name
  let source := env.resolve .lhs name
  let target := env.resolve .rhs name
  let (_, e) ← (Action.ask fun d => d.lookAt source).named "stat" source
  env.write (.copy source target)
  if e.node.kind = .directory then Tree.copyTree target source else Tree.copyEntry target source

/-- Copies the left side, or entries of it, to the right side. -/
def copy : Verb := fun env arguments => do
  if arguments.isEmpty then
    env.write (.copy env.lhs env.rhs)
    Tree.copyTree env.rhs env.lhs
  else arguments.forM (copyNamed env)

end TwinTrees.Verb
