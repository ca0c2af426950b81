import TwinTrees.Discovery
import TwinTrees.Options
import TwinTrees.Run.Batch
import TwinTrees.Verb.Standard

/-!
# The command line

The arguments name the test files, or directories with test files, and may override the settings of
a settings file. A run ends with one line that says how many tests passed, or with the code of the
first error; with a batch that is one error for all its failures. Log lines that go to the console
come before.

What does not follow from the arguments and the disk comes from the machine: where temporary files
go, the number of processors, and what each test draws from.
-/

namespace TwinTrees

/-- What the command line says. -/
structure Arguments where
  config : Option Path
  tempDir : Option String
  logToConsole : Bool
  jobs : Option Nat
  /-- Whether to run the tests one after the other. -/
  serial : Bool
  paths : List Path
  deriving DecidableEq, Repr

/-- What the machine provides for a run. -/
structure Machine where
  /-- The directory for temporary files where none is set. -/
  tempDir : Path
  processors : Nat
  /-- What the test with this number draws from. -/
  draws : Nat → Draws

/-- What a run has done that did not fail. -/
structure Outcome where
  files : Nat
  workers : Nat
  deriving DecidableEq, Repr

/-- What the program prints, and the code it ends with. -/
structure Report where
  exitCode : Nat
  output : String
  errors : String
  deriving DecidableEq, Repr

/-- The settings in a file. -/
def Disk.settings (d : Disk) (file : Path) : Except RunError Settings :=
  match d.readText file with
  | .error fault => .error (.settings file (.unreadable fault))
  | .ok text => (Settings.ofText text).mapError (RunError.settings file)

namespace Arguments

/-- The options of the program. -/
def usage : Options.Usage where
  program := "synctest"
  version := "0.1.0"
  about := "Builds lhs/rhs fixture trees from test scripts for sync and backup tools."
  options := [
    ⟨"config", some 'c', .value "CONFIG" Options.examinePath, "YAML configuration file"⟩,
    ⟨"tempdir", some 'T', .value "TEMPDIR" Options.examinePath,
      "Base directory for the run's temp root"⟩,
    ⟨"log-stdout", none, .switch, "Write per-test logs to stdout instead of <test>/test.log"⟩,
    ⟨"jobs", some 'j', .value "JOBS" Options.examineNumber,
      "Number of worker threads (0 = half the available cpus)"⟩,
    ⟨"serial", some 's', .switch, "Run test files one at a time and stop at the first failure"⟩,
    ⟨"help", some 'h', .help, "Print help"⟩,
    ⟨"version", some 'V', .version, "Print version"⟩]
  names := "PATHS"
  namesAbout := "Test files or directories containing test files"
  examineName := Options.examinePath

/-- The arguments of the program. -/
def read (arguments : List String) : Except Options.Stop Arguments := do
  let found ← Options.read usage arguments
  return {
    config := (found.value? "config").map Path.mk
    tempDir := found.value? "tempdir"
    logToConsole := found.has "log-stdout"
    jobs := (found.value? "jobs").bind fun value => (readNumber value.toList).toOption
    serial := found.has "serial"
    paths := found.names.map Path.mk }

/-- The settings, where what the command line says comes first. -/
def override (a : Arguments) (s : Settings) : Settings where
  tempDir := a.tempDir <|> s.tempDir
  logToConsole := a.logToConsole || s.logToConsole
  workers := a.jobs.getD s.workers

/-- The settings of the run. -/
def settings (a : Arguments) (d : Disk) : Except RunError Settings :=
  match a.config with
  | some file => (d.settings file).map a.override
  | none => .ok (a.override .default)

/-- Runs the tests that the arguments name. -/
def run (a : Arguments) (m : Machine) : Action RunError Outcome := do
  let settings ← Action.ask a.settings
  let files ← Action.ask fun d => d.discover a.paths
  if files.isEmpty then throw (.noTests a.paths)
  let root ← Action.draw (Run.newRoot (settings.tempBase m.tempDir))
  let r : Run := {
    root
    registry := Verb.standard
    target := settings.logTarget
    workers := settings.workersOn m.processors }
  let parallel := !a.serial && 1 < files.length
  r.tests parallel (files.zipIdx.map fun (file, i) => (file, m.draws i))
  return { files := files.length, workers := if parallel then r.workers else 1 }

end Arguments

/-- The line that says that a run passed. -/
def Outcome.message (o : Outcome) : String :=
  s!"PASS {o.files} test file(s), {o.workers} worker(s)"

namespace Report

/-- The code that the program ends with where a run fails. -/
def failed : Nat := 1

/-- The code that the program ends with where it cannot make sense of its arguments. -/
def misused : Nat := 2

/-- The report where there is nothing to run. -/
def ofStop (stop : Options.Stop) : Report :=
  match stop with
  | .help text | .version text => ⟨0, text ++ "\n", ""⟩
  | stop => ⟨misused, "", s!"{stop.message}\n\nFor more information, try '--help'.\n"⟩

/-- The records on the journal that belong to the console, as a text. -/
def consoleLog (journal : List Record) : String :=
  String.ofList ((journal.filter fun r => r.sink = .console).flatMap fun r =>
    LogText.record r.time r.event)

/-- What is said about an error. -/
def ofError (e : RunError) : String :=
  let help := match e.help? with
    | some text => s!"\n  help: {text}\n"
    | none => ""
  s!"FAIL\n{e.code}\n\n  {e.message}\n{help}"

/-- The report on a run with this journal. -/
def ofRun (journal : List Record) : Except RunError Outcome → Report
  | .ok outcome => ⟨0, consoleLog journal ++ outcome.message ++ "\n", ""⟩
  | .error e => ⟨failed, consoleLog journal, ofError e⟩

end Report

/-- Does what the arguments ask for. -/
def perform (arguments : List String) (m : Machine) : StateM World Report := do
  match Arguments.read arguments with
  | .error stop => return .ofStop stop
  | .ok a =>
    let result ← (a.run m).run
    return .ofRun (← get).journal result

end TwinTrees
