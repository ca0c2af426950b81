import TwinTrees.Options
import TwinTrees.Tree.Copy
import TwinTrees.Verb.Basic

/-!
# The verb `mkfile`

Makes files of random bytes, or directories, on one side or on both. The size of each file is drawn
between two bounds. With both sides, the entries are made on the left and then copied to the right,
so that both hold the same bytes.
-/

namespace TwinTrees.Verb

open Options (Opt Usage ValueFault)

/-- Where entries are made. -/
inductive MakeTarget
  | side (s : Side)
  | both
  deriving DecidableEq, Repr

def MakeTarget.ofString? : String → Option MakeTarget
  | "lhs" => some (.side .lhs)
  | "rhs" => some (.side .rhs)
  | "both" => some .both
  | _ => none

/-- The side on which entries are made first. -/
def MakeTarget.first : MakeTarget → Side
  | .side s => s
  | .both => .lhs

/-- The examination of a size. -/
def examineSize (value : String) : Option ValueFault :=
  match readSize value.toList with
  | .ok _ => none
  | .error fault => some (.rejected fault.message)

/-- The examination of a target. -/
def examineTarget (value : String) : Option ValueFault :=
  if (MakeTarget.ofString? value).isSome then none else some .notAllowed

def makeUsage : Usage where
  program := "mkfile"
  version := ""
  about := ""
  options := [
    ⟨"min-file-size", some 'm', .value "MIN" examineSize, "Minimum file size"⟩,
    ⟨"max-file-size", some 'M', .value "MAX" examineSize, "Maximum file size"⟩,
    ⟨"dir", some 'd', .switch, "Make directories instead of files"⟩,
    ⟨"target", some 't', .value "TARGET" examineTarget, "Where to create the entries"⟩]
  names := "NAMES"
  namesAbout := ""
  examineName := Options.accept

/-- What the arguments ask for. -/
structure MakeRequest where
  min : Nat
  max : Nat
  directories : Bool
  target : MakeTarget
  names : List String

/-- The request that arguments make. -/
def MakeRequest.read (arguments : List String) : Except CommandError MakeRequest := do
  let found ← (Options.read makeUsage arguments).mapError fun stop => .usage (.options stop)
  let size? (s : String) := (readSize s.toList).toOption
  let r : MakeRequest := {
    min := ((found.value? "min-file-size").bind size?).getD 1024
    max := ((found.value? "max-file-size").bind size?).getD 8192
    directories := found.has "dir"
    target := ((found.value? "target").bind MakeTarget.ofString?).getD (.side .lhs)
    names := found.names }
  if r.max < r.min then throw (.invalidArgument (.sizesReversed r.min r.max))
  if r.target = .both then r.names.forM requireRelative
  return r

/-- A size from the lower bound up to the upper one, or the lower one if they are equal. -/
def drawSize (min max : Nat) : Action CommandError Nat :=
  if h : min < max then Action.draw fun s => ((s.between min max h).1.1, (s.between min max h).2)
  else return min

/-- Makes one entry. -/
def makeEntry (env : Environment) (r : MakeRequest) (name : String) : Action CommandError Unit := do
  let path := env.resolve r.target.first name
  if r.directories then
    env.write (.makeDirectory path)
    Tree.makeDirectory path
  else
    let size ← drawSize r.min r.max
    env.write (.makeFile path size)
    Tree.makeFile path size env.start

/-- Copies one entry from the left side to the right. -/
def copyAcross (env : Environment) (name : String) : Action CommandError Unit := do
  let source := env.resolve .lhs name
  let target := env.resolve .rhs name
  env.write (.copy source target)
  Tree.copyEntry target source

/-- Makes files or directories. -/
def make : Verb := fun env arguments => do
  let r ← Action.ask fun _ => MakeRequest.read arguments
  r.names.forM (makeEntry env r)
  if r.target = .both then r.names.forM (copyAcross env)

end TwinTrees.Verb
