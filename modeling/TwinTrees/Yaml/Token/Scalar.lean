import TwinTrees.Yaml.Token

/-!
# Reading scalars

A scalar may go over several lines. Where a line is folded, its break becomes a space, or gives way
to the empty lines that follow it; white space around a break is dropped. In block scalars the
indentation is dropped, and line breaks at the end are clipped, stripped or kept.

The loops run at most as often as there are characters left, which is what their first argument
counts.
-/

namespace TwinTrees.Yaml

/-- White space between two parts of a scalar. -/
structure Blanks where
  /-- Spaces and tabs before any line break. -/
  white : List Char
  firstBreak : List Char
  otherBreaks : List Char
  broken : Bool
  deriving DecidableEq, Repr

def Blanks.none : Blanks := ⟨[], [], [], false⟩

/-- A first line break and those that follow it, folded. -/
def foldBreaks (first others : List Char) : List Char :=
  if first = ['\n'] then (if others.isEmpty then [' '] else others) else first ++ others

/-- What white space between two parts of a scalar stands for. -/
def Blanks.text (b : Blanks) : List Char :=
  if b.broken then foldBreaks b.firstBreak b.otherBreaks else b.white

/-- Reads white space. On a new line, `onTab` may refuse a tab. -/
def readBlanks (onTab : Cursor → Option Fault) : Nat → Cursor → Blanks →
    Except Fault (Blanks × Cursor)
  | 0, c, b => .ok (b, c)
  | fuel + 1, c, b =>
    if isSpaceOrTab c.head? then
      match (if b.broken && c.isAt '\t' then onTab c else none) with
      | some fault => .error fault
      | none =>
        readBlanks onTab fuel c.skip
          (if b.broken then b else { b with white := b.white ++ c.rest.take 1 })
    else if isBreak c.head? then
      let (text, after) := c.readBreak
      readBlanks onTab fuel after
        (if b.broken then { b with otherBreaks := b.otherBreaks ++ text }
          else { b with white := [], firstBreak := text, broken := true })
    else .ok (b, c)

/-- Characters that end a plain scalar between brackets. -/
def isFlowIndicator : Option Char → Bool
  | some ',' | some '[' | some ']' | some '{' | some '}' => true
  | _ => false

/-- The next characters of a plain scalar, up to white space or an indicator. -/
def plainChunk (inFlow : Bool) (began : Mark) : List Char → Mark →
    Except Fault (List Char × Cursor)
  | [], m => .ok ([], ⟨[], m⟩)
  | x :: rest, m =>
    if isGap (some x) then .ok ([], ⟨x :: rest, m⟩)
    else if inFlow && x == ':' && (isFlowIndicator rest.head? || rest.head? == some '?') then
      .error (Cursor.fault ⟨x :: rest, m⟩ .colonInFlow .plainScalar began)
    else if x == ':' && isGap rest.head? || inFlow && isFlowIndicator (some x) then
      .ok ([], ⟨x :: rest, m⟩)
    else do
      let (found, after) ← plainChunk inFlow began rest m.next
      return (x :: found, after)

/-- What a plain scalar holds, where it ends, and whether a line break follows it. -/
structure PlainScalar where
  text : List Char
  stop : Mark
  broken : Bool
  after : Cursor

/-- Reads the rest of a plain scalar, after `blanks`. -/
def readPlainFrom (inFlow : Bool) (indent : Int) (began : Mark) : Nat → Cursor → Blanks →
    PlainScalar → Except Fault PlainScalar
  | 0, _, _, scalar => .ok scalar
  | fuel + 1, c, blanks, scalar =>
    let stopped : PlainScalar := { scalar with broken := blanks.broken, after := c }
    if c.isAtDocument || c.isAt '#' then .ok stopped
    else do
      let (chunk, after) ← plainChunk inFlow began c.rest c.mark
      if chunk.isEmpty then return stopped
      let scalar : PlainScalar :=
        ⟨scalar.text ++ blanks.text ++ chunk, after.mark, false, after⟩
      if !(isSpaceOrTab after.head? || isBreak after.head?) then return scalar
      let onTab (c : Cursor) : Option Fault :=
        if (c.mark.column : Int) < indent then
          some (c.fault .tabBelowIndentation .plainScalar began)
        else none
      let (blanks, after) ← readBlanks onTab after.rest.length after Blanks.none
      if !inFlow && (after.mark.column : Int) < indent then
        return { scalar with broken := blanks.broken, after }
      readPlainFrom inFlow indent began fuel after blanks scalar

/-- Reads a plain scalar, whose lines are indented by at least `indent`. -/
def readPlain (inFlow : Bool) (indent : Int) (c : Cursor) : Except Fault PlainScalar :=
  readPlainFrom inFlow indent c.mark (c.rest.length + 1) c Blanks.none ⟨[], c.mark, false, c⟩

/-- What a letter after a backslash stands for. -/
def escapedChar? : Char → Option Char
  | '0' => some '\x00'
  | 'a' => some '\x07'
  | 'b' => some '\x08'
  | 't' | '\t' => some '\t'
  | 'n' => some '\n'
  | 'v' => some '\x0b'
  | 'f' => some '\x0c'
  | 'r' => some '\r'
  | 'e' => some '\x1b'
  | ' ' => some ' '
  | '"' => some '"'
  | '/' => some '/'
  | '\\' => some '\\'
  | 'N' => some '\u0085'
  | '_' => some '\u00a0'
  | 'L' => some '\u2028'
  | 'P' => some '\u2029'
  | _ => none

/-- The number of digits that follow a letter after a backslash. -/
def escapeDigits? : Char → Option Nat
  | 'x' => some 2
  | 'u' => some 4
  | 'U' => some 8
  | _ => none

/-- The value of digits in base sixteen. -/
def hexNumber? (digits : List Char) : Option Nat :=
  digits.foldlM (fun n x => (hexValue? x).map (n * 16 + ·)) 0

/-- Reads what follows a backslash. -/
def readEscape (began : Mark) (c : Cursor) : Except Fault (Char × Cursor) :=
  match c.char? 1 with
  | none => .error (c.fault .unknownEscape .escape began)
  | some x =>
    match escapedChar? x, escapeDigits? x with
    | some meant, _ => .ok (meant, c.skipMany 2)
    | none, none => .error (c.fault .unknownEscape .escape began)
    | none, some width =>
      let c := c.skipMany 2
      let digits := c.rest.take width
      match hexNumber? digits with
      | none => .error (c.fault .missingHexDigit .escape began)
      | some n =>
        if digits.length < width then .error (c.fault .missingHexDigit .escape began)
        else if h : n.isValidChar then .ok (Char.ofNatAux n h, c.skipMany width)
        else .error (c.fault .wrongCodePoint .escape began)

/-- The next characters of a quoted scalar, up to white space or the closing quote, and whether they
end in a line break after a backslash. -/
def quotedChunk (single : Bool) (began : Mark) : Nat → Cursor →
    Except Fault (List Char × Bool × Cursor)
  | 0, c => .ok ([], false, c)
  | fuel + 1, c =>
    match c.head? with
    | none => .ok ([], false, c)
    | some x =>
      if isGap (some x) then .ok ([], false, c)
      else if single && x == '\'' && c.char? 1 == some '\'' then do
        let (found, broken, after) ← quotedChunk single began fuel (c.skipMany 2)
        return ('\'' :: found, broken, after)
      else if x == (if single then '\'' else '"') then .ok ([], false, c)
      else if !single && x == '\\' then
        if isBreak (c.char? 1) then .ok ([], true, c.skip.skipBreak)
        else do
          let (meant, c) ← readEscape began c
          let (found, broken, after) ← quotedChunk single began fuel c
          return (meant :: found, broken, after)
      else do
        let (found, broken, after) ← quotedChunk single began fuel c.skip
        return (x :: found, broken, after)

/-- Reads the rest of a quoted scalar, after its opening quote and `text`. -/
def readQuotedFrom (single : Bool) (began : Mark) : Nat → Cursor → List Char →
    Except Fault (List Char × Cursor)
  | 0, c, _ => .error (c.fault .endInQuotes .quotedScalar began)
  | fuel + 1, c, text =>
    if c.isAtDocument then .error (c.fault .documentInQuotes .quotedScalar began)
    else if c.rest.isEmpty then .error (c.fault .endInQuotes .quotedScalar began)
    else do
      let (chunk, broken, c) ← quotedChunk single began (c.rest.length + 1) c
      if c.isAt (if single then '\'' else '"') then return (text ++ chunk, c.skip)
      let (blanks, c) ← readBlanks (fun _ => none) c.rest.length c { Blanks.none with broken }
      readQuotedFrom single began fuel c (text ++ chunk ++ blanks.text)

/-- Reads a quoted scalar. -/
def readQuoted (single : Bool) (c : Cursor) : Except Fault (List Char × Cursor) :=
  readQuotedFrom single c.mark (c.rest.length + 1) c.skip []

/-- What becomes of the line breaks at the end of a block scalar. -/
inductive Chomping
  | clip
  | strip
  | keep
  deriving DecidableEq, Repr

/-- Reads the indicator for the line breaks at the end, if there is one. -/
def readChomping (c : Cursor) : Option Chomping × Cursor :=
  if c.isAt '+' then (some .keep, c.skip)
  else if c.isAt '-' then (some .strip, c.skip)
  else (none, c)

/-- Reads the indicator for the indentation, if there is one. -/
def readIncrement (began : Mark) (c : Cursor) : Except Fault (Nat × Cursor) :=
  match c.head? with
  | some x =>
    if x == '0' then .error (c.fault .zeroIndentation .blockScalar began)
    else if x.isDigit then .ok (x.toNat - '0'.toNat, c.skip)
    else .ok (0, c)
  | none => .ok (0, c)

/-- The indicators of a block scalar, which come in either order, and the cursor after them. -/
def readBlockHeader (began : Mark) (c : Cursor) : Except Fault (Chomping × Nat × Cursor) := do
  let (early, c) := readChomping c
  let (increment, c) ← readIncrement began c
  let (late, c) := if early.isNone && increment != 0 then readChomping c else (none, c)
  return ((early <|> late).getD .clip, increment, c)

/-- Reads the indentation and the empty lines before a line. While the indentation is not known, it
is zero. Gives the line breaks, and the deepest indentation seen. -/
def readIndentation (began : Mark) (indent : Nat) : Nat → Cursor → List Char → Nat →
    Except Fault (List Char × Nat × Cursor)
  | 0, c, breaks, deepest => .ok (breaks, deepest, c)
  | fuel + 1, c, breaks, deepest =>
    let isMargin (c : Cursor) : Bool := indent == 0 || c.mark.column < indent
    if isMargin c && c.isAt ' ' then
      readIndentation began indent fuel c.skip breaks (max deepest (c.mark.column + 1))
    else if isMargin c && c.isAt '\t' then
      .error (c.fault .tabAsIndentation .blockScalar began)
    else if isBreak c.head? then
      let (text, after) := c.readBreak
      readIndentation began indent fuel after (breaks ++ text) deepest
    else .ok (breaks, max deepest c.mark.column, c)

/-- Reads the lines of a block scalar. `pending` is the last line break, `breaks` those of the empty
lines after it, and `wasBlank` says whether the last line started with white space. -/
def readBlockLines (folded : Bool) (began : Mark) (indent : Nat) : Nat → Cursor → List Char →
    List Char → List Char → Bool → Except Fault (List Char × List Char × List Char × Cursor)
  | 0, c, text, pending, breaks, _ => .ok (text, pending, breaks, c)
  | fuel + 1, c, text, pending, breaks, wasBlank =>
    if c.mark.column != indent || c.rest.isEmpty then .ok (text, pending, breaks, c)
    else do
      let blank := isSpaceOrTab c.head?
      let separation :=
        if folded && pending == ['\n'] && !wasBlank && !blank then
          if breaks.isEmpty then [' '] else breaks
        else pending ++ breaks
      let (line, c) := c.span fun x => !isLineEnd x
      let (pending, c) := c.readBreak
      let (breaks, _, c) ← readIndentation began indent (c.rest.length + 1) c [] 0
      readBlockLines folded began indent fuel c (text ++ separation ++ line) pending breaks blank

/-- Reads a block scalar in a collection that is indented by `outer`. -/
def readBlock (folded : Bool) (outer : Int) (c : Cursor) : Except Fault (List Char × Cursor) := do
  let began := c.mark
  let (chomping, increment, c) ← readBlockHeader began c.skip
  let c := (c.skipWhile isSpaceOrTab).skipComment
  if !isLineEnd c.head? then throw (c.fault .missingLineEnd .blockScalar began)
  let c := c.skipBreak
  let given := if increment = 0 then 0 else (max outer 0).toNat + increment
  let (breaks, deepest, c) ← readIndentation began given (c.rest.length + 1) c [] 0
  let indent := if given = 0 then max deepest (max (outer + 1).toNat 1) else given
  let (text, pending, breaks, c) ←
    readBlockLines folded began indent (c.rest.length + 1) c [] [] breaks false
  return (match chomping with
    | .strip => text
    | .clip => text ++ pending
    | .keep => text ++ pending ++ breaks, c)

end TwinTrees.Yaml
