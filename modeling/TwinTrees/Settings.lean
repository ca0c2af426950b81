import TwinTrees.IoError
import TwinTrees.Path
import TwinTrees.Size
import TwinTrees.Yaml.Plain

/-!
# Settings

The settings of a run are read from a YAML mapping with three fields, each of which may be left out:
the directory for temporary files, whether logs go to the console, and the number of workers. A
field that is not known, or given twice, is an error, and so is a value of the wrong kind. Of
several faults the first in the text is reported; what is not YAML counts only when it is reached.
-/

namespace TwinTrees

/-- Where the logs of tests go. -/
inductive LogTarget
  | file
  | console
  deriving DecidableEq, Repr

/-- The settings of a run. -/
structure Settings where
  /-- The directory in which the root of the run is made. -/
  tempDir : Option String
  logToConsole : Bool
  /-- The number of workers; zero leaves it to the number of processors. -/
  workers : Nat
  deriving DecidableEq, Repr

/-- The settings where nothing is set. -/
def Settings.default : Settings := ⟨none, false, 0⟩

/-- The fields of the mapping. -/
inductive SettingsField
  | tempDir
  | logToConsole
  | workers
  deriving DecidableEq, Repr

namespace SettingsField

def all : List SettingsField := [tempDir, logToConsole, workers]

def name : SettingsField → String
  | tempDir => "tempdir"
  | logToConsole => "log_stdout"
  | workers => "ncpu"

def ofName? (name : String) : Option SettingsField :=
  all.find? fun f => f.name == name

end SettingsField

/-- What is wrong with a node. -/
inductive Mismatch
  | kind (found expected : String)
  | value (found : String) (expected : String)
  | unknownField (name : String)
  | repeatedField (field : SettingsField)
  deriving DecidableEq, Repr

def Mismatch.message : Mismatch → String
  | kind found expected => s!"invalid type: {found}, expected {expected}"
  | value found expected => s!"invalid value: string {Text.quoted found}, expected {expected}"
  | unknownField name =>
    s!"unknown field `{name}`, expected one of " ++
      ", ".intercalate (SettingsField.all.map fun f => s!"`{f.name}`")
  | repeatedField field => s!"duplicate field `{field.name}`"

/-- Why settings could not be read. -/
inductive SettingsFault
  | unreadable (fault : IoError)
  | malformed (fault : Yaml.Fault)
  /-- The value of a field, or else the mapping or a name in it, is not as it should be. -/
  | mismatch (field : Option String) (what : Mismatch) (place : Yaml.Mark)
  | endsEarly
  | severalDocuments
  | other (text : String)
  deriving DecidableEq, Repr

def SettingsFault.message : SettingsFault → String
  | unreadable fault => fault.message
  | malformed fault => fault.message
  | mismatch none what place => what.message ++ place.suffix
  | mismatch (some field) what place => s!"{field}: {what.message}{place.suffix}"
  | endsEarly => "EOF while parsing a value"
  | severalDocuments => "deserializing from YAML containing more than one document is not supported"
  | other text => text

namespace Settings

open Yaml (Document Mark ScalarStyle)

/-- The tag of one of the standard kinds of scalars. -/
def standardTag (name : String) : List Char := ("tag:yaml.org,2002:" ++ name).toList

/-- A scalar that its tag calls a value of some kind, where something else is expected. -/
def taggedMismatch (text : List Char) (meaning : Option Yaml.Meaning) (kind expected : String) :
    Mismatch :=
  match meaning with
  | some m => .kind m.describe expected
  | none => .value (String.ofList text) kind

/-- A scalar where something else is expected. -/
def scalarMismatch (tag : Option (List Char)) (text : List Char) (style : ScalarStyle)
    (expected : String) : Mismatch :=
  match tag with
  | some tag =>
    if tag = standardTag "bool" then
      taggedMismatch text ((Yaml.truth? text).map .truth) "a boolean" expected
    else if tag = standardTag "int" then
      taggedMismatch text ((Yaml.whole? text).map .whole) "an integer" expected
    else if tag = standardTag "float" then
      taggedMismatch text (Yaml.real? text) "a float" expected
    else if tag = standardTag "null" then
      taggedMismatch text (if Yaml.isNull text then some .nothing else none) "null" expected
    else .kind (Yaml.Meaning.text text).describe expected
  | none =>
    .kind (if style = .plain then Yaml.plainMeaning text else .text text).describe expected

/-- A node where something else is expected. -/
def nodeMismatch (n : Yaml.Node) (expected : String) : Mismatch :=
  match n with
  | .scalar tag text style => scalarMismatch tag text style expected
  | .mappingStart | .mappingEnd => .kind "map" expected
  | .sequenceStart | .sequenceEnd | .aliasTo _ => .kind "sequence" expected

/-- Whether the text of a scalar counts as a value of a kind: it is plain, or a literal block with
the tag of that kind. -/
def countsAs (kind : String) (tag : Option (List Char)) (style : ScalarStyle) : Bool :=
  style = .plain || style = .literal && tag = some (standardTag kind)

/-- The truth value that a node stands for. -/
def readTruth (n : Yaml.Node) : Except Mismatch Bool :=
  match n with
  | .scalar tag text style =>
    match if countsAs "bool" tag style then Yaml.truth? text else none with
    | some b => .ok b
    | none => .error (nodeMismatch n "a boolean")
  | _ => .error (nodeMismatch n "a boolean")

/-- The number below 2^64 that a node stands for. -/
def readCount (n : Yaml.Node) : Except Mismatch Nat :=
  match n with
  | .scalar tag text style =>
    match if countsAs "int" tag style then Yaml.unsigned? text else none with
    | some k => if k < wordLimit then .ok k else .error (nodeMismatch n "usize")
    | none => .error (nodeMismatch n "usize")
  | _ => .error (nodeMismatch n "usize")

/-- Whether a scalar says that there is no value. -/
def saysNothing (tag : Option (List Char)) (text : List Char) (style : ScalarStyle) : Bool :=
  style = .plain &&
    match tag with
    | none => text.isEmpty || Yaml.isNull text
    | some tag => tag = standardTag "null" && Yaml.isNull text

/-- Whether a scalar is tagged as nothing and is something. -/
def contradictsNull (tag : Option (List Char)) (text : List Char) (style : ScalarStyle) : Bool :=
  style = .plain && tag = some (standardTag "null") && !Yaml.isNull text

/-- What has been set so far. -/
structure Given where
  tempDir : Option (Option String)
  logToConsole : Option Bool
  workers : Option Nat

/-- Whether a field has been set. -/
def Given.has (g : Given) : SettingsField → Bool
  | .tempDir => g.tempDir.isSome
  | .logToConsole => g.logToConsole.isSome
  | .workers => g.workers.isSome

/-- The settings, where what has not been set is as in the default. -/
def Given.settings (g : Given) : Settings where
  tempDir := g.tempDir.getD default.tempDir
  logToConsole := g.logToConsole.getD default.logToConsole
  workers := g.workers.getD default.workers

/-- The node that a node stands for. -/
def target (d : Document) (n : Yaml.Node × Mark) : Yaml.Node × Mark :=
  match n.1 with
  | .aliasTo anchor => (d.anchored? anchor).getD n
  | _ => n

/-- Sets a field. `key` shows in messages, `mapping` is where the mapping starts. -/
def readValue (mapping : Mark) (key : String) (field : SettingsField) (n : Yaml.Node × Mark)
    (g : Given) : Except SettingsFault Given :=
  let here {α : Type} (r : Except Mismatch α) : Except SettingsFault α :=
    r.mapError fun what => .mismatch (some key) what n.2
  match field with
  | .logToConsole => (here (readTruth n.1)).map fun b => { g with logToConsole := some b }
  | .workers => (here (readCount n.1)).map fun k => { g with workers := some k }
  | .tempDir =>
    match n.1 with
    | .scalar tag text style =>
      if contradictsNull tag text style then
        .error (.mismatch none (.value (String.ofList text) "null") mapping)
      else if saysNothing tag text style then .ok { g with tempDir := some none }
      else .ok { g with tempDir := some (some (String.ofList text)) }
    | other => here (.error (nodeMismatch other "path string"))

/-- The field that a node names. -/
def readName (n : Yaml.Node × Mark) : Except SettingsFault SettingsField :=
  match n.1 with
  | .scalar _ text _ =>
    match SettingsField.ofName? (String.ofList text) with
    | some field => .ok field
    | none => .error (.mismatch none (.unknownField (String.ofList text)) n.2)
  | other => .error (.mismatch none (nodeMismatch other "field identifier") n.2)

/-- How a node that names a field shows in messages. -/
def keyText : Yaml.Node → String
  | .scalar _ text _ => String.ofList text
  | _ => "?"

/-- What there is instead of a node where a document ends too early. -/
def missingNode (d : Document) : SettingsFault :=
  match d.fault with
  | some fault => .malformed fault
  | none => .endsEarly

/-- Reads the fields of the mapping. -/
def readFields (d : Document) (mapping : Mark) : List (Yaml.Node × Mark) → Given →
    Except SettingsFault Given
  | [], _ => .error (missingNode d)
  | (.mappingEnd, _) :: _, g => .ok g
  | [n], _ => do
    let _ ← readName (target d n)
    throw (missingNode d)
  | n :: value :: rest, g => do
    let field ← readName (target d n)
    if g.has field then throw (.mismatch none (.repeatedField field) mapping)
    let g ← readValue mapping (keyText n.1) field (target d value) g
    readFields d mapping rest g

/-- The settings in a document. An empty scalar stands for an empty mapping. -/
def ofDocument (d : Document) : Except SettingsFault Settings :=
  match d.nodes with
  | [] => .error (missingNode d)
  | (.mappingStart, m) :: rest => (readFields d m rest ⟨none, none, none⟩).map Given.settings
  | (.scalar _ [] .plain, _) :: _ => .ok default
  | (n, m) :: _ => .error (.mismatch none (nodeMismatch n "struct HarnessConfig") m)

/-- The settings in a text. A text without any document sets nothing. -/
def ofText (text : String) : Except SettingsFault Settings :=
  match Yaml.readFirst text.toList with
  | none => .ok default
  | some (d, more) => do
    let settings ← ofDocument d
    match d.fault with
    | some fault => throw (.malformed fault)
    | none => if more then throw .severalDocuments else return settings

/-- The directory for temporary files; `fallback` if none is set. -/
def tempBase (s : Settings) (fallback : Path) : Path :=
  match s.tempDir with
  | some dir => if dir.isEmpty then fallback else ⟨dir⟩
  | none => fallback

/-- Where the logs of tests go. -/
def logTarget (s : Settings) : LogTarget := if s.logToConsole then .console else .file

/-- The number of workers on a machine with so many processors: half of them, if it is not set, and
at least one. -/
def workersOn (s : Settings) (processors : Nat) : Nat :=
  if 0 < s.workers then s.workers else max 1 (processors / 2)

end Settings

end TwinTrees
