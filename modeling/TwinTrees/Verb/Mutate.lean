import TwinTrees.Options
import TwinTrees.Tree.Mutation
import TwinTrees.Verb.Basic

/-!
# The verb `mutate`

Changes a share of the bytes of files at random. The share lies between two percentages.
-/

namespace TwinTrees.Verb

open Options (Opt Usage ValueFault)

/-- The examination of a percentage. -/
def examinePercent (value : String) : Option ValueFault :=
  match readNumber value.toList with
  | .error fault => some (.rejected fault.message)
  | .ok n => if n ≤ maxPercent then none else some (.rejected s!"{n} is not in 0..={maxPercent}")

def mutateUsage : Usage where
  program := "mutate"
  version := ""
  about := ""
  options := [
    ⟨"min-pct", some 'm', .value "MIN_PCT" examinePercent, "Minimum percentage of bytes to change"⟩,
    ⟨"max-pct", some 'M', .value "MAX_PCT" examinePercent, "Maximum percentage of bytes to change"⟩]
  names := "FILES"
  namesAbout := "File lists, each of one side"
  examineName := Options.accept

/-- What the arguments ask for. -/
structure MutateRequest where
  min : Nat
  max : Nat
  files : List String

/-- The request that arguments make. -/
def MutateRequest.read (arguments : List String) : Except CommandError MutateRequest := do
  let found ← (Options.read mutateUsage arguments).mapError fun stop => .usage (.options stop)
  let number? (s : String) := (readNumber s.toList).toOption
  let r : MutateRequest := {
    min := ((found.value? "min-pct").bind number?).getD 10
    max := ((found.value? "max-pct").bind number?).getD 20
    files := found.names }
  if r.max < r.min then throw (.invalidArgument (.percentsReversed r.min r.max))
  return r

/-- Changes one file. -/
def mutateEntry (env : Environment) (min max : Nat) (side : Side) (name : String) :
    Action CommandError Unit := do
  let path := env.resolve side name
  let m ← Tree.mutate path min max
  env.write (.mutated path m.writes m.size m.appended)

/-- Changes files at random. -/
def mutate : Verb := fun env arguments => do
  let r ← Action.ask fun _ => MutateRequest.read arguments
  forEachSided r.files (mutateEntry env r.min r.max)

end TwinTrees.Verb
