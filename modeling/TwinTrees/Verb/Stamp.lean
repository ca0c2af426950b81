import TwinTrees.Tree.Stamp
import TwinTrees.Verb.Basic

/-!
# The verbs `sync` and `touch`

Both give all files and directories of both sides the start time of the test. They take no
arguments; the log mentions those that are given.
-/

namespace TwinTrees.Verb

/-- Gives both sides the start time of the test. -/
def stamp (verb : String) : Verb := fun env arguments => do
  if !arguments.isEmpty then env.write (.argumentsIgnored verb arguments)
  Tree.stampTrees [env.lhs, env.rhs] env.start

end TwinTrees.Verb
