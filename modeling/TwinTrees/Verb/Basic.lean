import TwinTrees.Environment

/-!
# Verbs

A verb acts on the trees of a test, as its arguments say. The arguments come with their
placeholders replaced.
-/

namespace TwinTrees

/-- What a verb does. -/
abbrev Verb := Environment → List String → Action CommandError Unit

namespace Verb

/-- An action for each of the names that a sided argument gives, in order. Arguments are looked at
one after the other, so a malformed one does not undo what those before it did. -/
def forEachSided (arguments : List String) (act : Side → String → Action CommandError Unit) :
    Action CommandError Unit :=
  arguments.forM fun argument => do
    let (side, names) ← Action.ask fun _ => readSided argument
    names.forM (act side)

/-- Stops at a name that is an absolute path. -/
def requireRelative (name : String) : Except CommandError Unit :=
  if (Path.mk name).isAbsolute then .error (.invalidArgument (.absoluteName name)) else .ok ()

end Verb

end TwinTrees
