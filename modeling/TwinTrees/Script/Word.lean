/-!
# Words of a line

A line is divided into words by one scan from left to right. Blanks (space and tab) separate
words. A single quote opens literal text up to the next single quote; a double quote opens text in
which a backslash makes the next character literal; outside quotes a backslash does the same.
Adjacent pieces join into one word, so `lhs="a b"c` is one word. A `#` between words opens a
comment that lasts to the end of the line; inside a word it is an ordinary character.

A scan that ends inside quotes or right after a backslash fails, with the byte at which the line
stopped making sense: the open single quote, the backslash that has nothing to escape, or the end
of the line for an open double quote.
-/

namespace TwinTrees.Script

/-- Where in a line the scan stands. -/
inductive ScanMode
  | between
  | inWord
  /-- After a single quote at byte `opened`. -/
  | singleQuoted (opened : Nat)
  | doubleQuoted
  /-- After a backslash at byte `slash` between double quotes. -/
  | doubleEscape (slash : Nat)
  /-- After a backslash at byte `slash` outside quotes. -/
  | escape (slash : Nat)
  | comment
  deriving DecidableEq, Repr

/-- A scan in progress. -/
structure WordScan where
  mode : ScanMode
  /-- The number of bytes read. -/
  offset : Nat
  /-- The characters of the word being read, last first. -/
  current : List Char
  /-- The finished words, last first. -/
  finished : List (List Char)
  deriving DecidableEq, Repr

/-- A line that cannot be divided into words, with the byte at which the division stopped. -/
structure UnfinishedWord where
  offset : Nat
  deriving DecidableEq, Repr

def UnfinishedWord.message (e : UnfinishedWord) : String :=
  s!"unterminated quote or trailing escape at column {e.offset + 1}"

namespace WordScan

/-- The scan before the first character. -/
def start : WordScan := ⟨.between, 0, [], []⟩

/-- Space and tab separate words. -/
def isSeparator (c : Char) : Bool := c == ' ' || c == '\t'

/-- Reads a character that may open a piece of a word. -/
def openPiece (s : WordScan) (c : Char) : WordScan :=
  if c = '\'' then { s with mode := .singleQuoted s.offset }
  else if c = '"' then { s with mode := .doubleQuoted }
  else if c = '\\' then { s with mode := .escape s.offset }
  else { s with mode := .inWord, current := c :: s.current }

/-- The scan with `c` added to the current word. -/
def push (s : WordScan) (c : Char) (mode : ScanMode) : WordScan :=
  { s with mode, current := c :: s.current }

/-- The scan with the current word finished. -/
def finishWord (s : WordScan) : WordScan :=
  { s with mode := .between, current := [], finished := s.current.reverse :: s.finished }

/-- The effect of one character, its place in the line apart. -/
def react (s : WordScan) (c : Char) : WordScan :=
  match s.mode with
  | .between =>
    if isSeparator c then s
    else if c = '#' then { s with mode := .comment }
    else s.openPiece c
  | .inWord => if isSeparator c then s.finishWord else s.openPiece c
  | .singleQuoted _ => if c = '\'' then { s with mode := .inWord } else s.push c s.mode
  | .doubleQuoted =>
    if c = '"' then { s with mode := .inWord }
    else if c = '\\' then { s with mode := .doubleEscape s.offset }
    else s.push c .doubleQuoted
  | .doubleEscape _ => s.push c .doubleQuoted
  | .escape _ => s.push c .inWord
  | .comment => s

/-- Reads one character. -/
def step (s : WordScan) (c : Char) : WordScan :=
  { s.react c with offset := s.offset + c.utf8Size }

/-- Reads a text. -/
def run (s : WordScan) (text : List Char) : WordScan :=
  text.foldl step s

/-- The words of the line if it may end here. -/
def finish (s : WordScan) : Except UnfinishedWord (List (List Char)) :=
  match s.mode with
  | .between | .comment => .ok s.finished.reverse
  | .inWord => .ok (s.current.reverse :: s.finished).reverse
  | .singleQuoted opened => .error ⟨opened⟩
  | .doubleQuoted => .error ⟨s.offset⟩
  | .doubleEscape slash | .escape slash => .error ⟨slash⟩

theorem run_append (s : WordScan) (a b : List Char) : s.run (a ++ b) = (s.run a).run b :=
  List.foldl_append

end WordScan

/-- The words of a line. -/
def splitWords (line : List Char) : Except UnfinishedWord (List (List Char)) :=
  (WordScan.start.run line).finish

/-- The words of a line, as strings. -/
def words (line : String) : Except UnfinishedWord (List String) :=
  (splitWords line.toList).map (List.map String.ofList)

end TwinTrees.Script
