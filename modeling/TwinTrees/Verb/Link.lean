import TwinTrees.Tree.Make
import TwinTrees.Verb.Basic

/-!
# The verb `symlink`

Makes symbolic links, each written as `NEW@OLD`. Both names are names of the same side.
-/

namespace TwinTrees.Verb

/-- The names of the link and of what it leads to. -/
def readLink (pair : String) : Except CommandError (String × String) :=
  match Text.splitFirst? '@' pair.toList with
  | some (new@(_ :: _), old@(_ :: _)) => .ok (String.ofList new, String.ofList old)
  | _ => .error (.invalidArgument (.notLink pair))

/-- Makes one link. -/
def linkEntry (env : Environment) (side : Side) (pair : String) : Action CommandError Unit := do
  let (new, old) ← Action.ask fun _ => readLink pair
  let path := env.resolve side new
  let target := env.resolve side old
  Tree.makeParent path
  env.write (.link path target)
  (Action.change fun t d => d.makeLink t target path).named "symlink" path

/-- Makes links. -/
def link : Verb := fun env arguments => do
  if arguments.isEmpty then throw (.usage .noLinks)
  forEachSided arguments (linkEntry env)

end TwinTrees.Verb
