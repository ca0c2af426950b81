import TwinTrees.Size

/-!
# Options of a command

A command takes options, each with a long name and perhaps a letter, and names. An option is a
switch or takes one value, which is attached (`--jobs=3`, `-j3`, `-j=3`) or follows as the next
argument. Letters may be clustered (`-sj3`). What starts with a dash is never a value that follows,
and `--` makes all that comes after it names. A value is examined when the next argument shows that
nothing more belongs to it, so of two faults the one that is noticed first is reported.
-/

namespace TwinTrees.Options

/-- Why a value is refused. -/
inductive ValueFault
  /-- There is none where one is required. -/
  | missing
  /-- It is not one of the values allowed. -/
  | notAllowed
  | rejected (reason : String)
  deriving DecidableEq, Repr

/-- What an option does. -/
inductive Effect
  | switch
  /-- Takes a value, shown under a name, that must pass an examination. -/
  | value (placeholder : String) (examine : String → Option ValueFault)
  | help
  | version

/-- An option of a command. -/
structure Opt where
  long : String
  letter : Option Char
  effect : Effect
  about : String

/-- What a command takes. At least one name is required. -/
structure Usage where
  program : String
  version : String
  about : String
  options : List Opt
  /-- How the names are shown, and what they are. -/
  names : String
  namesAbout : String
  examineName : String → Option ValueFault

/-- How an option is shown in messages. -/
def Opt.label (o : Opt) : String :=
  match o.effect with
  | .value placeholder _ => s!"--{o.long} <{placeholder}>"
  | _ => s!"--{o.long}"

/-- How the names of a command are shown in messages. -/
def Usage.namesLabel (u : Usage) : String := s!"<{u.names}>..."

/-- Arguments that do not fit a command, or that ask for a text about it. -/
inductive Stop
  | unknown (argument : String)
  | valueMissing (label : String)
  | valueNotAllowed (label value : String)
  | valueRejected (label value reason : String)
  | repeated (label : String)
  | valueUnexpected (label value : String)
  | namesMissing
  | help (text : String)
  | version (text : String)
  deriving DecidableEq, Repr

def Stop.message : Stop → String
  | unknown argument => s!"error: unexpected argument '{argument}' found"
  | valueMissing label => s!"error: a value is required for '{label}' but none was supplied"
  | valueNotAllowed label value => s!"error: invalid value '{value}' for '{label}'"
  | valueRejected label value reason =>
    s!"error: invalid value '{value}' for '{label}': {reason}"
  | repeated label => s!"error: the argument '{label}' cannot be used multiple times"
  | valueUnexpected label value =>
    s!"error: unexpected value '{value}' for '{label}' found; no more were expected"
  | namesMissing => "error: the following required arguments were not provided:"
  | help text => text
  | version text => text

/-- The options and names found. -/
structure Found where
  switches : List String
  values : List (String × String)
  names : List String
  deriving DecidableEq, Repr

/-- Whether the switch with this long name was given. -/
def Found.has (f : Found) (long : String) : Bool := f.switches.contains long

/-- The value given for the option with this long name. -/
def Found.value? (f : Found) (long : String) : Option String :=
  (f.values.find? fun v => v.1 == long).map Prod.snd

/-- What the arguments read last belong to, before it is examined. -/
inductive Pending
  | nothing
  /-- An option that takes a value, and the value if it has been read. -/
  | option (o : Opt) (placeholder : String) (examine : String → Option ValueFault)
      (value : Option String)
  | names (given : List String)

/-- The reading of arguments in progress. -/
structure Reader where
  found : Found
  pending : Pending
  /-- After `--`, all arguments are names. -/
  onlyNames : Bool

/-- The reader before the first argument. -/
def Reader.start : Reader := ⟨⟨[], [], []⟩, .nothing, false⟩

/-- Examines a value. -/
def examine (label : String) (examiner : String → Option ValueFault) (value : String) :
    Except Stop Unit :=
  match examiner value with
  | none => .ok ()
  | some .missing => .error (.valueMissing label)
  | some .notAllowed =>
    .error (if value.isEmpty then .valueMissing label else .valueNotAllowed label value)
  | some (.rejected reason) => .error (.valueRejected label value reason)

/-- Records what is pending. -/
def Reader.settle (u : Usage) (r : Reader) : Except Stop Reader :=
  match r.pending with
  | .nothing => .ok r
  | .option o _ _ none => .error (.valueMissing o.label)
  | .option o _ examiner (some value) => do
    if (r.found.value? o.long).isSome then throw (.repeated o.label)
    examine o.label examiner value
    return { r with
      pending := .nothing
      found := { r.found with values := r.found.values ++ [(o.long, value)] } }
  | .names given => do
    given.forM (examine u.namesLabel u.examineName)
    return { r with
      pending := .nothing
      found := { r.found with names := r.found.names ++ given } }

/-- The text that describes a command. -/
def Usage.helpText (u : Usage) : String :=
  let rows := u.options.map fun o =>
    ((match o.letter with
      | some c => s!"-{c}, "
      | none => "    ") ++ o.label, o.about)
  let width := rows.foldl (fun w r => max w r.1.length) 0
  let optionLines := rows.map fun (left, about) =>
    "  " ++ left ++ String.ofList (List.replicate (width - left.length) ' ') ++ "  " ++ about
  "\n".intercalate (
    [u.about, "", s!"Usage: {u.program} [OPTIONS] {u.namesLabel}", "", "Arguments:",
      s!"  {u.namesLabel}  {u.namesAbout}", "", "Options:"] ++ optionLines)

/-- Reads an option that comes without an attached value. -/
def Reader.bare (u : Usage) (r : Reader) (o : Opt) : Except Stop Reader := do
  let r ← r.settle u
  match o.effect with
  | .switch =>
    if r.found.has o.long then throw (.repeated o.label)
    return { r with found := { r.found with switches := r.found.switches ++ [o.long] } }
  | .value placeholder examiner =>
    return { r with pending := .option o placeholder examiner none }
  | .help => throw (.help u.helpText)
  | .version => throw (.version s!"{u.program} {u.version}")

/-- Reads an option that takes a value, with the value attached. -/
def Reader.attached (u : Usage) (r : Reader) (o : Opt) (placeholder : String)
    (examiner : String → Option ValueFault) (value : String) : Except Stop Reader := do
  let r ← r.settle u
  { r with pending := .option o placeholder examiner (some value) }.settle u

/-- Reads the letters after a single dash. -/
def Reader.letters (u : Usage) (r : Reader) : List Char → Except Stop Reader
  | [] => .ok r
  | c :: rest =>
    match u.options.find? fun o => o.letter == some c with
    | none => .error (.unknown s!"-{c}")
    | some o =>
      match o.effect, rest with
      | .value _ _, [] => r.bare u o
      | .value placeholder examiner, '=' :: value =>
        r.attached u o placeholder examiner (String.ofList value)
      | .value placeholder examiner, value =>
        r.attached u o placeholder examiner (String.ofList value)
      | _, rest => do
        let r ← r.bare u o
        r.letters u rest

/-- Reads the text after two dashes. -/
def Reader.long (u : Usage) (r : Reader) (text : List Char) : Except Stop Reader :=
  let (name, value) :=
    match Text.splitFirst? '=' text with
    | some (name, value) => (name, some (String.ofList value))
    | none => (text, none)
  match u.options.find? fun o => o.long.toList == name with
  | none => .error (.unknown s!"--{String.ofList name}")
  | some o =>
    match value, o.effect with
    | none, _ => r.bare u o
    | some value, .value placeholder examiner => r.attached u o placeholder examiner value
    | some value, _ => .error (.valueUnexpected o.label value)

/-- Reads an argument that is a name. -/
def Reader.name (u : Usage) (r : Reader) (argument : String) : Except Stop Reader :=
  match r.pending with
  | .names given => .ok { r with pending := .names (given ++ [argument]) }
  | _ => do
    let r ← r.settle u
    return { r with pending := .names [argument] }

/-- Reads one argument. -/
def Reader.read (u : Usage) (r : Reader) (argument : String) : Except Stop Reader :=
  if r.onlyNames then r.name u argument
  else
    match argument.toList, r.pending with
    | ['-', '-'], _ => .ok { r with onlyNames := true }
    | '-' :: '-' :: text, _ => r.long u text
    | '-' :: c :: text, _ => r.letters u (c :: text)
    | _, .option o placeholder examiner none =>
      .ok { r with pending := .option o placeholder examiner (some argument) }
    | _, _ => r.name u argument

/-- The options and names among the arguments. -/
def read (u : Usage) (arguments : List String) : Except Stop Found := do
  let r ← arguments.foldlM (Reader.read u) Reader.start
  let r ← r.settle u
  if r.found.names.isEmpty then throw .namesMissing
  return r.found

/-- The examination of a whole number below 2^64. -/
def examineNumber (value : String) : Option ValueFault :=
  match readNumber value.toList with
  | .ok _ => none
  | .error fault => some (.rejected fault.message)

/-- The examination of a path, which must not be empty. -/
def examinePath (value : String) : Option ValueFault :=
  if value.isEmpty then some .missing else none

/-- The examination that every value passes. -/
def accept (_ : String) : Option ValueFault := none

end TwinTrees.Options
