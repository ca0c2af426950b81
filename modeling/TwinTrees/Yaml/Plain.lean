import TwinTrees.Decimal
import TwinTrees.Yaml.Document
import TwinTrees.Text.Quoted

/-!
# What plain scalars stand for

A plain scalar may stand for nothing, a truth value, a whole number in one of four bases, or a
number with a point or an exponent. All other scalars are texts. Digits after a leading zero are a
text too, since it is not clear in which base they are.
-/

namespace TwinTrees.Yaml

/-- What a scalar stands for. -/
inductive Meaning
  | nothing
  | truth (b : Bool)
  | whole (n : Int)
  | real (b : Decimal.Binary64)
  | infinite (negative : Bool)
  | notNumber
  | text (s : List Char)
  deriving DecidableEq, Repr

def isNull (s : List Char) : Bool := ["null", "Null", "NULL", "~"].contains (String.ofList s)

def truth? (s : List Char) : Option Bool :=
  if ["true", "True", "TRUE"].contains (String.ofList s) then some true
  else if ["false", "False", "FALSE"].contains (String.ofList s) then some false
  else none

/-- The value of digits in a base. -/
def digitsIn? (base : Nat) (s : List Char) : Option Nat :=
  if s.isEmpty then none
  else s.foldlM (fun n c =>
    (hexValue? c).bind fun d => if d < base then some (n * base + d) else none) 0

/-- The base that a text shows at its start, and the digits after it. -/
def readBase : List Char → Nat × List Char
  | '0' :: 'x' :: rest => (16, rest)
  | '0' :: 'o' :: rest => (8, rest)
  | '0' :: 'b' :: rest => (2, rest)
  | s => (10, s)

/-- Whether the text has digits after a leading zero, and nothing else but a sign. -/
def hasLeadingZero (s : List Char) : Bool :=
  match (Decimal.readSign s).2 with
  | '0' :: rest => !rest.isEmpty && rest.all Char.isDigit
  | _ => false

/-- A whole number with an optional plus sign. -/
def unsigned? (s : List Char) : Option Nat :=
  if hasLeadingZero s then none
  else
    let (base, digits) := readBase (match s with
      | '+' :: rest => rest
      | s => s)
    digitsIn? base digits

/-- A whole number with a minus sign. -/
def negative? (s : List Char) : Option Int :=
  match s with
  | '-' :: rest =>
    if hasLeadingZero s then none
    else
      let (base, digits) := readBase rest
      (digitsIn? base digits).map fun n => -(n : Int)
  | _ => none

/-- A whole number of at most 128 bits. -/
def whole? (s : List Char) : Option Int :=
  match unsigned? s, negative? s with
  | some n, _ => if n < 1 <<< 128 then some n else none
  | none, some n => if n.natAbs ≤ 1 <<< 127 then some n else none
  | none, none => none

/-- A number with a point or an exponent, or one that is not a finite number. -/
def real? (s : List Char) : Option Meaning :=
  let unsigned := match s with
    | '+' :: rest => rest
    | s => s
  let twoSigns := s.head? == some '+' && (unsigned.head? == some '+' || unsigned.head? == some '-')
  if twoSigns then none
  else if [".inf", ".Inf", ".INF"].contains (String.ofList unsigned) then some (.infinite false)
  else if ["-.inf", "-.Inf", "-.INF"].contains (String.ofList s) then some (.infinite true)
  else if [".nan", ".NaN", ".NAN"].contains (String.ofList s) then some .notNumber
  else ((Decimal.Written.ofText? unsigned).bind Decimal.Written.nearest?).map .real

/-- What a plain scalar stands for. -/
def plainMeaning (s : List Char) : Meaning :=
  if s.isEmpty || isNull s then .nothing
  else
    match truth? s, whole? s, if hasLeadingZero s then none else real? s with
    | some b, _, _ => .truth b
    | none, some n, _ => .whole n
    | none, none, some r => r
    | none, none, none => .text s

/-- What was found, in words. Numbers of more than 64 bits say so. -/
def Meaning.describe : Meaning → String
  | nothing => "unit value"
  | truth b => s!"boolean `{b}`"
  | whole n =>
    if UInt64.size ≤ n then s!"integer `{n}` as u128"
    else if n < Int64.minValue.toInt then s!"integer `{n}` as i128"
    else s!"integer `{n}`"
  | real b => s!"floating point `{String.ofList b.text}`"
  | infinite negative => if negative then "floating point `-inf`" else "floating point `inf`"
  | notNumber => "floating point `NaN`"
  | text s => s!"string {Text.quoted (String.ofList s)}"

end TwinTrees.Yaml
