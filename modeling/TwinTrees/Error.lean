import TwinTrees.CommandError
import TwinTrees.Script.Command
import TwinTrees.Settings

/-!
# Errors of a run

Everything that can go wrong between the command line and the end of a run, with the text that
reports it, a code, and a hint where one helps. The failures of a batch are kept all together, in
the order of the files.
-/

namespace TwinTrees

/-- Why a test, or a run as a whole, failed. -/
inductive RunError
  | read (file : Path) (fault : IoError)
  | script (error : Script.ScriptError)
  | expansion (test verb argument : String)
  | environment (test part : String) (fault : IoError)
  | command (test verb : String) (error : CommandError)
  | cleanup (test : String) (path : Path) (fault : IoError)
  | runRootCleanup (path : Path) (fault : IoError)
  | discover (root : Path) (error : WalkError)
  | settings (path : Path) (fault : SettingsFault)
  | noTests (paths : List Path)
  | batch (errors : List RunError)
  deriving Repr

namespace RunError

mutual

def message : RunError → String
  | read file fault => s!"{file}: {fault.message}"
  | script error => error.message
  | expansion test verb argument => s!"{test}: {verb}: can't expand env {argument}"
  | environment test part fault => s!"{test}: {part}: {fault.message}"
  | command test verb error => s!"{test}: {verb}: {error.message}"
  | cleanup test path fault => s!"{test}: cleanup {path}: {fault.message}"
  | runRootCleanup path fault => s!"cleanup {path}: {fault.message}"
  | discover root error => s!"discover {root}: {error.message}"
  | settings path fault => s!"config {path}: {fault.message}"
  | noTests paths => "no test files found in " ++ ", ".intercalate (paths.map Path.text)
  | batch errors => s!"{errors.length} test(s) failed" ++ messages errors

/-- The messages, each on a new line. -/
def messages : List RunError → String
  | [] => ""
  | e :: rest => "\n" ++ e.message ++ messages rest

end

/-- The code by which a reader can look the error up. -/
def code : RunError → String
  | read .. => "synctest::io::read"
  | script error =>
    match error.fault with
    | .unfinishedWord _ => "synctest::parse::tokenize"
    | .unknownVerb _ => "synctest::parse::unknown_command"
    | .noWords | .unfinishedLine => "synctest::parse::malformed"
  | expansion .. => "synctest::expand"
  | environment .. => "synctest::env"
  | command .. => "synctest::command"
  | cleanup .. => "synctest::cleanup"
  | runRootCleanup .. => "synctest::cleanup::run_root"
  | discover .. => "synctest::discover"
  | settings .. => "synctest::config"
  | noTests _ => "synctest::discover::empty"
  | batch _ => "synctest::batch"

/-- A hint on what to do about the error. -/
def help? : RunError → Option String
  | script ⟨_, _, _, .unknownVerb _⟩ =>
    some "verbs must be registered with the command registry before parsing"
  | expansion .. => some "recognised variables are $LHS, $RHS, $ROOT and $TNAME"
  | noTests _ => some "test files end in .t"
  | _ => none

/-- The test that the error is about, if it is about a single one. -/
def test? : RunError → Option String
  | expansion test .. | environment test .. | command test .. | cleanup test .. => some test
  | script error => some error.file
  | _ => none

/-- The error where the script says what is wrong: its stretch of the source, and what to write
beside it. -/
def label? : RunError → Option (Script.Span × String)
  | script error => some (error.span,
      match error.fault with
      | .unfinishedWord _ => "can't split this line into words"
      | .unknownVerb _ => "not a registered command"
      | .noWords | .unfinishedLine => "here")
  | _ => none

/-- Whether the error is about the text of a script. -/
def isScriptError : RunError → Bool
  | script _ => true
  | _ => false

end RunError

end TwinTrees
