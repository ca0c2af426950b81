import TwinTrees.Text.Blank

/-!
# Numbers and sizes as they are written

Whole numbers below 2^64 in decimal digits, with an optional plus sign, and byte sizes: digits
followed by a unit. Units are binary multiples and their letter case does not count.
-/

namespace TwinTrees

/-- One more than the largest number that a size or a count can be. -/
def wordLimit : Nat := UInt64.size

/-- Why a text is not a number below 2^64. -/
inductive NumberFault
  | empty
  | invalidDigit
  | tooLarge
  deriving DecidableEq, Repr

def NumberFault.message : NumberFault → String
  | empty => "cannot parse integer from empty string"
  | invalidDigit => "invalid digit found in string"
  | tooLarge => "number too large to fit in target type"

/-- The value of an ASCII digit. -/
def digitValue? (c : Char) : Option Nat :=
  if '0' ≤ c ∧ c ≤ '9' then some (c.toNat - '0'.toNat) else none

/-- The number whose first digits have the value `value` and whose other digits follow. Of two
faults the leftmost counts. -/
def readDigits (value : Nat) : List Char → Except NumberFault Nat
  | [] => .ok value
  | c :: rest =>
    match digitValue? c with
    | none => .error .invalidDigit
    | some d =>
      if value * 10 + d < wordLimit then readDigits (value * 10 + d) rest else .error .tooLarge

/-- A number below 2^64. -/
def readNumber : List Char → Except NumberFault Nat
  | [] => .error .empty
  | ['+'] => .error .invalidDigit
  | '+' :: digits => readDigits 0 digits
  | digits => readDigits 0 digits

/-- Why a text is not a size. -/
inductive SizeFault
  | noNumber (text : List Char)
  | unknownUnit (unit text : List Char)
  | tooLarge (text : List Char)
  deriving DecidableEq, Repr

def SizeFault.message : SizeFault → String
  | noNumber text => s!"invalid size '{String.ofList text}'"
  | unknownUnit unit text =>
    s!"invalid size suffix '{String.ofList unit}' in '{String.ofList text}'"
  | tooLarge text => s!"size '{String.ofList text}' is too large"

/-- The number of bits by which a unit, written in small letters, shifts a number. -/
def unitShift? (unit : List Char) : Option Nat :=
  if unit ∈ [[], ['b']] then some 0
  else if unit ∈ [['k'], ['k', 'b'], ['k', 'i', 'b']] then some 10
  else if unit ∈ [['m'], ['m', 'b'], ['m', 'i', 'b']] then some 20
  else if unit ∈ [['g'], ['g', 'b'], ['g', 'i', 'b']] then some 30
  else if unit ∈ [['t'], ['t', 'b'], ['t', 'i', 'b']] then some 40
  else none

/-- A size: digits and a unit, with white space around them. -/
def readSize (text : List Char) : Except SizeFault Nat :=
  let trimmed := Text.trim text
  let digits := trimmed.takeWhile fun c => (digitValue? c).isSome
  let unit := trimmed.dropWhile fun c => (digitValue? c).isSome
  match digits, readDigits 0 digits with
  | [], _ | _, .error _ => .error (.noNumber text)
  | _, .ok n =>
    match unitShift? (unit.map Char.toLower) with
    | none => .error (.unknownUnit unit text)
    | some shift =>
      if n <<< shift < wordLimit then .ok (n <<< shift) else .error (.tooLarge text)

end TwinTrees
