import TwinTrees.Disk.Basic
import TwinTrees.Text.Quoted

/-!
# Events of a test

What is worth a line in the log of a test: its start and its end, each command with its expanded
arguments, and each entry that a command is about to make, copy or remove. An event is written when
the action begins, so the log of a failed test ends with the action that failed.

In a log each record begins with the time and the level of the event. `LogText.events` finds the
first lines of the records again.
-/

namespace TwinTrees

/-- How much an event matters. -/
inductive Level
  | info
  | debug
  deriving DecidableEq, Repr

def Level.name : Level → String
  | info => "INFO"
  | debug => "DEBUG"

/-- What happens during a test. -/
inductive Event
  | started (root : Path) (test : String)
  | command (verb : String) (arguments : List String) (line : Nat)
  | makeDirectory (path : Path)
  | makeFile (path : Path) (size : Nat)
  | copy (source target : Path)
  | remove (path : Path)
  | link (path target : Path)
  | mutated (path : Path) (writes size : Nat) (appended : Bool)
  | argumentsIgnored (verb : String) (arguments : List String)
  | passed (root : Path)
  | failed (test message : String)
  deriving DecidableEq, Repr

namespace Event

def level : Event → Level
  | started .. | passed _ | failed .. => .info
  | _ => .debug

def message : Event → String
  | started root test => s!"testroot {root}; starting test {test} .."
  | command verb arguments line => s!"{verb} {Text.quotedList arguments} line={line}"
  | makeDirectory path => s!"mkdir {path}"
  | makeFile path size => s!"mkfile {path} ({size} bytes)"
  | copy source target => s!"clone {source} -> {target}"
  | remove path => s!"rm {path}"
  | link path target => s!"symlink {path} -> {target}"
  | mutated path writes size appended =>
    s!"mutate {path}: {writes} of {size} bytes (append {appended})"
  | argumentsIgnored verb arguments => s!"{verb}: ignoring arguments {Text.quotedList arguments}"
  | passed root => s!"tests passed; removing {root} .."
  | failed test message => s!"test {test} complete: error:\n{message}"

/-- The record of the event without its time. -/
def text (e : Event) : String := s!"{e.level.name} {e.message}"

end Event

namespace LogText

/-- The digits of the nanoseconds, nine of them. -/
def nanoDigits (nanos : Nat) : List Char :=
  let digits := Nat.toDigits 10 nanos
  List.replicate (9 - digits.length) '0' ++ digits

/-- The time at the start of a record. -/
def stamp (t : Time) : List Char :=
  (toString t.seconds).toList ++ '.' :: nanoDigits t.nanos

/-- The record of an event, with the newline that ends it. -/
def record (t : Time) (e : Event) : List Char :=
  stamp t ++ ' ' :: e.text.toList ++ ['\n']

/-- What follows the time at the start of a line, if there is one. -/
def afterStamp? (line : List Char) : Option (List Char) :=
  match Text.splitFirst? ' ' line with
  | none => none
  | some (time, text) =>
    match Text.splitFirst? '.' time with
    | some (seconds, nanos) =>
      if (seconds.dropWhile (· == '-')).all Char.isDigit && nanos.all Char.isDigit &&
        nanos.length == 9 then some text else none
    | none => none

/-- The first lines of the records in a log, without their times. -/
def events (log : List Char) : List (List Char) :=
  (Text.splitAll '\n' log).filterMap afterStamp?

end LogText

end TwinTrees
