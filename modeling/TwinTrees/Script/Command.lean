import TwinTrees.Registry
import TwinTrees.Script.Line
import TwinTrees.Script.Word

/-!
# Commands of a script

Each logical line is divided into words. The first word is the verb and must be registered; the
other words are the arguments, as they are written. A script is read as a whole: the first line
that is not a command makes the script an error, which says where the line is.
-/

namespace TwinTrees.Script

/-- A stretch of bytes of a source text. -/
structure Span where
  offset : Nat
  length : Nat
  deriving DecidableEq, Repr

/-- What is wrong with a logical line. -/
inductive LineFault
  | unfinishedWord (e : UnfinishedWord)
  | unknownVerb (verb : String)
  | noWords
  | unfinishedLine
  deriving DecidableEq, Repr

def LineFault.message : LineFault → String
  | unfinishedWord e => e.message
  | unknownVerb verb => s!"unknown command {verb}"
  | noWords => "empty command"
  | unfinishedLine => "unterminated line continuation at end of file"

/-- A script that could not be read as commands. -/
structure ScriptError where
  file : String
  line : Nat
  span : Span
  fault : LineFault
  deriving DecidableEq, Repr

def ScriptError.message (e : ScriptError) : String :=
  s!"{e.file}:{e.line}: {e.fault.message}"

/-- One command of a script. -/
structure Command (β : Type) where
  /-- What the registry holds for the verb. -/
  handler : Handler β
  verb : String
  /-- The words after the verb, as written in the script. -/
  arguments : List String
  line : Nat

/-- The words of the command's line. -/
def Command.words {β : Type} (c : Command β) : List String := c.verb :: c.arguments

/-- Commands are the same if they name the same handler, have the same words and end on the same
line. -/
def Command.same {β : Type} (a b : Command β) : Bool :=
  a.handler.name == b.handler.name && a.words == b.words && a.line == b.line

/-- The command as shown in a log. -/
def Command.describe {β : Type} (c : Command β) : String :=
  s!"ParsedCommand \x7b command: {Text.quoted c.handler.name}, " ++
    s!"args: {Text.quotedList c.words}, line: {c.line} \x7d"

/-- The list of commands as shown in a log. -/
def describeAll {β : Type} (cs : List (Command β)) : String :=
  "[" ++ ", ".intercalate (cs.map Command.describe) ++ "]"

def LogicalLine.span (l : LogicalLine) : Span := ⟨l.start, l.stop - l.start⟩

/-- The command on a logical line. -/
def LogicalLine.command? {β : Type} (registry : Registry β) (l : LogicalLine) :
    Except LineFault (Command β) :=
  match splitWords l.text with
  | .error e => .error (.unfinishedWord e)
  | .ok [] => .error .noWords
  | .ok (verb :: arguments) =>
    match registry.lookup (String.ofList verb) with
    | none => .error (.unknownVerb (String.ofList verb))
    | some handler =>
      .ok { handler, verb := String.ofList verb, arguments := arguments.map String.ofList
            line := l.line }

/-- The error of a fault on a logical line. -/
def LogicalLine.error (file : String) (l : LogicalLine) (fault : LineFault) : ScriptError :=
  { file, line := l.line, span := l.span, fault }

/-- The commands on logical lines, up to the first line that is none. -/
def commandsOf {β : Type} (registry : Registry β) (file : String) :
    List LogicalLine → Except ScriptError (List (Command β))
  | [] => .ok []
  | l :: rest =>
    match l.command? registry with
    | .error fault => .error (l.error file fault)
    | .ok command => (commandsOf registry file rest).map (command :: ·)

/-- The commands of a script. The name of the file is only used in errors. -/
def parse {β : Type} (registry : Registry β) (file source : String) :
    Except ScriptError (List (Command β)) :=
  let (lines, unfinished) := logicalLines source.toList
  match commandsOf registry file lines, unfinished with
  | .error e, _ => .error e
  | .ok _, some l => .error (l.error file .unfinishedLine)
  | .ok commands, none => .ok commands

end TwinTrees.Script
