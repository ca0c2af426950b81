import TwinTrees.IoError
import TwinTrees.Path
import TwinTrees.Options

/-!
# Errors of a command

Why a command could not do what its arguments ask: a request on files failed, an entry is there
that should not be or is missing, or the arguments make no sense. Each error has a message and a
code.
-/

namespace TwinTrees

/-- One of the two trees of a test. -/
inductive Side
  | lhs
  | rhs
  deriving DecidableEq, Repr

/-- The name of a side, in scripts and on disk. -/
def Side.name : Side → String
  | lhs => "lhs"
  | rhs => "rhs"

/-- What is wrong with an argument. -/
inductive ArgumentFault
  | notSided (argument : String)
  | unknownSide (keyword : String)
  | noNames (side : Side)
  | absoluteName (name : String)
  | sizesReversed (min max : Nat)
  | percentsReversed (min max : Nat)
  | notLink (pair : String)
  | percentTooLarge (min max : Nat)
  | fileTooLarge (size : Nat)
  /-- A copy holds fewer or more bytes than the file it was made from. -/
  | wrongCopy (path : Path) (expected copied : Nat)
  | other (text : String)
  deriving DecidableEq, Repr

/-- The largest percentage of a file that can be asked to change. -/
def maxPercent : Nat := 100

def ArgumentFault.message : ArgumentFault → String
  | notSided argument => s!"{argument}: expected lhs=... or rhs=..."
  | unknownSide keyword => s!"unknown keyword {keyword}"
  | noNames side => s!"{side.name} is empty?"
  | absoluteName name => s!"{name}: common file can't be absolute"
  | sizesReversed min max => s!"min size {min} exceeds max size {max}"
  | percentsReversed min max => s!"min pct {min} exceeds max pct {max}"
  | notLink pair => s!"symlink: {pair}: expected NEW@OLD"
  | percentTooLarge min max =>
    s!"mutate: percentages must be at most {maxPercent}, got {min}..{max}"
  | fileTooLarge size => s!"mutate: {size} bytes is too large"
  | wrongCopy path expected copied => s!"copy {path}: exp {expected} bytes, saw {copied}"
  | other text => text

/-- Arguments that do not fit the verb. -/
inductive UsageFault
  | noEntries
  | noLinks
  | options (stop : Options.Stop)
  | other (text : String)
  deriving DecidableEq, Repr

/-- The text up to its first newline. -/
def firstLine (s : String) : String :=
  String.ofList (s.toList.takeWhile (· != '\n'))

/-- Only the first line says what is wrong. -/
def UsageFault.message : UsageFault → String
  | noEntries => "rm: no entries named"
  | noLinks => "symlink: no links named"
  | options stop => firstLine stop.message
  | other text => firstLine text

/-- An entry that could not be visited while walking down a tree. -/
structure WalkError where
  path : Path
  fault : IoError
  deriving DecidableEq, Repr

def WalkError.message (e : WalkError) : String :=
  s!"IO error for operation on {e.path}: {e.fault.message}"

/-- Why a command failed. -/
inductive CommandError
  /-- A request on files, named by its first word, failed on a path. -/
  | io (request : String) (path : Path) (fault : IoError)
  | alreadyExists (path : Path)
  | notFound (path : Path)
  | usage (fault : UsageFault)
  | invalidArgument (fault : ArgumentFault)
  | walk (root : Path) (error : WalkError)
  deriving DecidableEq, Repr

namespace CommandError

def message : CommandError → String
  | io request path fault => s!"{request} {path}: {fault.message}"
  | alreadyExists path => s!"{path}: already exists"
  | notFound path => s!"{path}: doesn't exist"
  | usage fault => fault.message
  | invalidArgument fault => fault.message
  | walk root error => s!"walk {root}: {error.message}"

/-- The code by which a reader can look the error up. -/
def code : CommandError → String
  | io .. => "synctest::command::io"
  | alreadyExists _ => "synctest::command::exists"
  | notFound _ => "synctest::command::missing"
  | usage _ => "synctest::command::usage"
  | invalidArgument _ => "synctest::command::invalid_argument"
  | walk .. => "synctest::command::walk"

end CommandError

end TwinTrees
