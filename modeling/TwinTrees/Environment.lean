import TwinTrees.Error
import TwinTrees.Side
import TwinTrees.Script.Placeholder
import TwinTrees.Tree.Make

/-!
# The environment of a test

Each test has a directory of its own below the root of the run. In it are the two trees, `lhs` and
`rhs`, and the log. The directory must not be there before, so no two tests share one. The
environment also fixes the one time that all entries made by the test are given.
-/

namespace TwinTrees

/-- What a test and its commands refer to. -/
structure Environment where
  name : String
  root : Path
  lhs : Path
  rhs : Path
  start : Time
  /-- The number of tests that may run at a time. -/
  workers : Nat
  sink : LogSink
  deriving DecidableEq, Repr

namespace Environment

/-- The directory of a side. -/
def side (env : Environment) : Side → Path
  | .lhs => env.lhs
  | .rhs => env.rhs

/-- The path of a name on a side; an absolute name stands for itself. -/
def resolve (env : Environment) (side : Side) (name : String) : Path :=
  (env.side side).join ⟨name⟩

/-- The value of a placeholder. -/
def value? (env : Environment) : String → Option String
  | "LHS" => some env.lhs.text
  | "RHS" => some env.rhs.text
  | "ROOT" => some env.root.text
  | "TNAME" => some env.name
  | _ => none

/-- The environment in words. -/
def describe (env : Environment) : String :=
  s!"TestEnv: name {env.name}: Root: {env.root}\n\tLHS {env.lhs}, RHS {env.rhs}\n"

/-- Writes an event to the log of the test. -/
def write {ε : Type} (env : Environment) (e : Event) : Action ε Unit := env.sink.write e

/-- Makes the directories of a test and opens its log. -/
def build (runRoot : Path) (name : String) (target : LogTarget) (workers : Nat) :
    Action RunError Environment := do
  let root := runRoot.join ⟨name⟩
  let lhs := root.join ⟨Side.lhs.name⟩
  let rhs := root.join ⟨Side.rhs.name⟩
  part "run root" (Tree.makeDirectories runRoot Tree.directoryMode)
  part "test root" (Action.change fun t d => d.makeDirectory t root Tree.directoryMode)
  part "LHS" (Tree.makeDirectories lhs Tree.directoryMode)
  part "RHS" (Tree.makeDirectories rhs Tree.directoryMode)
  let sink ← match target with
    | .file => part "logfile" (LogSink.openIn root)
    | .console => pure .console
  let start ← Action.now
  return { name, root, lhs, rhs, start, workers, sink }
where
  /-- A failing request as the failure to make a part of the environment. -/
  part {α : Type} (what : String) (a : Action IoError α) : Action RunError α :=
    a.mapError (RunError.environment name what)

/-- An argument of a verb with its placeholders replaced. It must not be empty then, since an empty
name would stand for the directory of a side. -/
def expandArgument (env : Environment) (verb argument : String) : Except RunError String :=
  let expanded := Script.expandString env.value? argument
  if expanded.isEmpty then .error (.expansion env.name verb argument) else .ok expanded

/-- The arguments of a verb with their placeholders replaced. -/
def expandArguments (env : Environment) (verb : String) (arguments : List String) :
    Except RunError (List String) :=
  arguments.mapM (env.expandArgument verb)

end Environment

end TwinTrees
