import TwinTrees.CommandError
import TwinTrees.Disk.Request
import TwinTrees.Event
import TwinTrees.Random

/-!
# What tests act on

A test acts on the disk and on the journal, which it shares with other tests, and draws random words
and the time from sources of its own. `World` holds the four. An `Action` may fail; what it did
before it failed stays done.

The log of a test is a file below the test's directory, or the console, which all tests share. Every
event is put on the journal together with the log it belongs to. A log file is held open: once the
file is removed, or another one put in its place, its log is only in the journal.
-/

namespace TwinTrees

/-- The answers of the clock, and how many of them have been read. -/
structure Clock where
  reading : Nat → Time
  position : Nat

/-- Where the log of a test goes. -/
inductive LogSink
  | file (path : Path) (f : OpenFile)
  | console
  deriving DecidableEq, Repr

/-- An event and the log that it belongs to. -/
structure Record where
  sink : LogSink
  time : Time
  event : Event
  deriving DecidableEq, Repr

/-- What all tests share. -/
structure Shared where
  disk : Disk
  journal : List Record

/-- What each test draws from by itself. -/
structure Draws where
  source : Source
  clock : Clock

structure World extends Shared, Draws

/-- An action on the world, which may fail. -/
abbrev Action (ε : Type) := ExceptT ε (StateM World)

namespace Action

variable {ε ε' α : Type}

/-- The action with its failure replaced. -/
def mapError (f : ε → ε') (a : Action ε α) : Action ε' α := a.adapt f

/-- The action with its failure as a part of its answer. -/
def attempt (a : Action ε α) : Action ε' (Except ε α) :=
  ExceptT.lift (ExceptT.run a)

/-- The time. -/
def now : Action ε Time := fun w =>
  (.ok (w.clock.reading w.clock.position),
    { w with clock := { w.clock with position := w.clock.position + 1 } })

/-- An answer about the disk. -/
def ask (f : Disk → Except ε α) : Action ε α := fun w => (f w.disk, w)

/-- A request that changes the disk, or fails and leaves it as it is. -/
def request (f : Time → Disk → Except ε (α × Disk)) : Action ε α := do
  let t ← now
  let (a, disk) ← ask (f t)
  modify fun w => { w with disk }
  return a

/-- A request that answers with nothing but the changed disk. -/
def change (f : Time → Disk → Except ε Disk) : Action ε Unit :=
  request fun t d => (f t d).map ((), ·)

/-- A draw from the random source that may fail, and then draws nothing. -/
def tryDraw (f : Source → Except ε (α × Source)) : Action ε α := fun w =>
  match f w.source with
  | .ok (a, source) => (.ok a, { w with source })
  | .error e => (.error e, w)

/-- A draw from the random source. -/
def draw (f : Source → α × Source) : Action ε α :=
  tryDraw fun s => .ok (f s)

/-- A failing request as the failure of a command. -/
def named (request : String) (path : Path) (a : Action IoError α) : Action CommandError α :=
  a.mapError (CommandError.io request path)

end Action

namespace LogSink

/-- The path of the log file. -/
def path? : LogSink → Option Path
  | file path _ => some path
  | console => none

/-- The sink as shown in a log. -/
def describe (s : LogSink) : String :=
  let path := match s.path? with
    | some p => s!"Some({Text.quoted p.text})"
    | none => "None"
  s!"LogSink \x7b path: {path} \x7d"

/-- The name of the log file in the directory of a test. -/
def fileName : String := "test.log"

/-- Opens the log file in a directory. -/
def openIn (root : Path) : Action IoError LogSink := do
  let path := root.join ⟨fileName⟩
  let f ← Action.request fun t d => d.openOrCreate t path 0o600 false
  return .file path f

/-- Writes an event. -/
def write {ε : Type} (s : LogSink) (e : Event) : Action ε Unit := do
  let t ← Action.now
  modify fun w => { w with journal := w.journal ++ [⟨s, t, e⟩] }
  match s with
  | .console => return
  | .file _ f =>
    let bytes := (String.ofList (LogText.record t e)).toUTF8.data
    modify fun w => { w with disk := w.disk.append t f bytes }

end LogSink

end TwinTrees
