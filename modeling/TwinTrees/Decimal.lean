/-!
# Decimal texts of binary numbers

A binary64 number is a significand below 2^53 times a power of two. Two things are done with such
numbers here: the number nearest to a decimal text is found, and a number is written with the fewest
decimal digits that read back as the same number, the nearest of them if there are several, without
an exponent. All is done in whole numbers.
-/

namespace TwinTrees.Decimal

/-- A number written in decimal: `digits · 10 ^ exponent`, with a sign. -/
structure Written where
  negative : Bool
  digits : Nat
  exponent : Int
  deriving DecidableEq, Repr

/-- The number `significand · 2 ^ exponent`, with a sign. -/
structure Binary64 where
  negative : Bool
  significand : Nat
  exponent : Int
  deriving DecidableEq, Repr

/-- The value of decimal digits. -/
def digitsValue (digits : List Char) : Nat :=
  digits.foldl (fun n c => n * 10 + (c.toNat - '0'.toNat)) 0

/-- A sign at the start of a text, and the text after it. -/
def readSign : List Char → Bool × List Char
  | '-' :: rest => (true, rest)
  | '+' :: rest => (false, rest)
  | text => (false, text)

/-- The exponent at the end of a number; none if there is something else. -/
def readExponent? : List Char → Option Int
  | [] => some 0
  | c :: rest =>
    if c = 'e' ∨ c = 'E' then
      let (negative, digits) := readSign rest
      if digits.isEmpty || !digits.all Char.isDigit then none
      else some (if negative then -(digitsValue digits : Int) else digitsValue digits)
    else none

/-- A number with an optional sign, point and exponent, and at least one digit before the
exponent. -/
def Written.ofText? (text : List Char) : Option Written :=
  let (negative, text) := readSign text
  let whole := text.takeWhile Char.isDigit
  let afterWhole := text.dropWhile Char.isDigit
  let (fraction, afterFraction) := match afterWhole with
    | '.' :: rest => (rest.takeWhile Char.isDigit, rest.dropWhile Char.isDigit)
    | rest => ([], rest)
  if whole.isEmpty && fraction.isEmpty then none
  else
    (readExponent? afterFraction).map fun exponent =>
      ⟨negative, digitsValue (whole ++ fraction), exponent - fraction.length⟩

/-- `n · base ^ exponent` as a fraction. -/
def power (base n : Nat) (exponent : Int) : Nat × Nat :=
  match exponent with
  | .ofNat e => (n * base.pow e, 1)
  | .negSucc e => (n, base.pow (e + 1))

/-- A quotient rounded to the nearest whole number, and to the even one of two. -/
def roundHalfEven (n d : Nat) : Nat :=
  let q := n / d
  let twice := 2 * (n % d)
  if d < twice ∨ (twice = d ∧ q % 2 = 1) then q + 1 else q

/-- The smallest exponent of a binary64 number. -/
def minExponent : Int := -1074

/-- The largest exponent of a binary64 number. -/
def maxExponent : Int := 971

/-- The binary64 number nearest to a positive fraction; none if it is too large. -/
def nearestTo? (negative : Bool) (n d : Nat) : Option Binary64 :=
  let guess : Int := (n.log2 : Int) - d.log2
  let (low, high) := power 2 d guess
  let top : Int := if low ≤ n * high then guess else guess - 1
  let exponent := max (top - 52) minExponent
  let (scaled, scale) := power 2 d exponent
  let k := roundHalfEven (n * scale) scaled
  let (k, exponent) := if k = 1 <<< 53 then (1 <<< 52, exponent + 1) else (k, exponent)
  if maxExponent < exponent then none else some ⟨negative, k, exponent⟩

/-- A power of ten beyond which every number is too large for binary64, or too small. -/
def farOut : Int := 400

/-- The binary64 number nearest to a decimal one; none if it is too large. -/
def Written.nearest? (w : Written) : Option Binary64 :=
  let size := (Nat.toDigits 10 w.digits).length + w.exponent
  if w.digits = 0 ∨ size < -farOut then some ⟨w.negative, 0, minExponent⟩
  else if farOut < size then none
  else
    let (n, d) := power 10 w.digits w.exponent
    nearestTo? w.negative n d

/-- How many powers of ten, counted down from `e`, until one is not above a fraction. -/
def magnitudeFrom (n d : Nat) : Nat → Int → Int
  | 0, e => e
  | fuel + 1, e =>
    let (p, q) := power 10 1 e
    if p * d ≤ n * q then e else magnitudeFrom n d fuel (e - 1)

/-- The numbers that read as a binary64 number, as multiples of `1 / scale`. -/
structure Interval where
  low : Nat
  value : Nat
  high : Nat
  scale : Nat
  closed : Bool

/-- The interval of the numbers nearest to this one. -/
def Binary64.interval (b : Binary64) : Interval :=
  let (unit, scale) := power 2 1 (b.exponent - 2)
  let below := if b.significand = 1 <<< 52 ∧ minExponent < b.exponent then 1 else 2
  { low := (4 * b.significand - below) * unit
    value := 4 * b.significand * unit
    high := (4 * b.significand + 2) * unit
    scale
    closed := b.significand % 2 = 0 }

/-- Whether `n · 10 ^ e` is in the interval. -/
def Interval.holds (i : Interval) (n : Nat) (e : Int) : Bool :=
  let (p, q) := power 10 n e
  if i.closed then i.low * q ≤ p * i.scale && p * i.scale ≤ i.high * q
  else i.low * q < p * i.scale && p * i.scale < i.high * q

/-- The multiple of `10 ^ e` that is in the interval and nearest to its number. -/
def Interval.nearestMultiple? (i : Interval) (e : Int) : Option Nat :=
  let (p, q) := power 10 1 e
  let n := i.value * q / (p * i.scale)
  let distance := i.value * q - n * p * i.scale
  match i.holds n e, i.holds (n + 1) e with
  | true, true => if 2 * distance < p * i.scale then some n else some (n + 1)
  | true, false => some n
  | false, true => some (n + 1)
  | false, false => none

/-- The multiple of the largest power of ten, from `10 ^ e` down, that is in the interval. -/
def Interval.shortest (i : Interval) : Nat → Int → Nat × Int
  | 0, e => (0, e)
  | fuel + 1, e =>
    match i.nearestMultiple? e with
    | some n => (n, e)
    | none => i.shortest fuel (e - 1)

/-- Digits times a power of ten, written with a point if need be. -/
def positional (digits : List Char) : Int → List Char
  | .ofNat e => digits ++ List.replicate e '0'
  | .negSucc e =>
    let places := e + 1
    if places < digits.length then
      digits.take (digits.length - places) ++ '.' :: digits.drop (digits.length - places)
    else ['0', '.'] ++ List.replicate (places - digits.length) '0' ++ digits

/-- The number without zeros at the end of its digits. -/
def stripZeros : Nat → Nat → Int → Nat × Int
  | 0, n, e => (n, e)
  | fuel + 1, n, e => if n % 10 = 0 ∧ n ≠ 0 then stripZeros fuel (n / 10) (e + 1) else (n, e)

/-- The fewest digits that read back as the number, with a point and a digit after it. -/
def Binary64.text (b : Binary64) : List Char :=
  let unsigned :=
    if b.significand = 0 then ['0']
    else
      let i := b.interval
      let top := magnitudeFrom i.value i.scale 700 310
      let (n, e) := i.shortest 20 top
      let (n, e) := stripZeros 20 n e
      positional (Nat.toDigits 10 n) e
  let unsigned := if unsigned.contains '.' then unsigned else unsigned ++ ['.', '0']
  if b.negative then '-' :: unsigned else unsigned

end TwinTrees.Decimal
