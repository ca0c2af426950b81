import TwinTrees.Text.Blank

/-!
# Lines of a script

A script is read by physical lines. White space around a line does not count, and a line that is
then empty or starts with `#` is skipped. A line that ends in a backslash continues on the next
line that is not skipped; the lines so joined form one logical line. A logical line remembers the
number of the physical line on which it ends and the bytes from the start of its first physical
line to the end of its last one, without the characters that end that line.
-/

namespace TwinTrees.Script

/-- One command line, continuations joined. -/
structure LogicalLine where
  text : List Char
  /-- The number, from 1, of the physical line on which it ends. -/
  line : Nat
  /-- The byte at which its first physical line starts. -/
  start : Nat
  /-- The byte after its last physical line. -/
  stop : Nat
  deriving DecidableEq, Repr

/-- The physical lines of a text, each with the newline that ends it. -/
def physicalLines : List Char → List (List Char)
  | [] => []
  | c :: rest =>
    if c = '\n' then [c] :: physicalLines rest
    else
      match physicalLines rest with
      | [] => [[c]]
      | line :: lines => (c :: line) :: lines

/-- The part of a physical line that counts. -/
def content (raw : List Char) : List Char := Text.trim raw

/-- Lines without content, and comments, are skipped. -/
def isSkipped (content : List Char) : Bool :=
  content.isEmpty || content.head? == some '#'

/-- The content without the backslash that continues the line, if there is one. -/
def continued? (content : List Char) : Option (List Char) :=
  if content.getLast? = some '\\' then some content.dropLast else none

/-- A physical line without the characters that end it. -/
def withoutLineEnd (raw : List Char) : List Char :=
  Text.dropEndWhile (fun c => c == '\n' || c == '\r') raw

/-- Where the reader of lines stands: the lines and bytes it has read, and the logical line that
still continues. -/
structure LineReader where
  line : Nat
  offset : Nat
  pending : Option LogicalLine
  deriving DecidableEq, Repr

namespace LineReader

/-- The reader at the start of a script. -/
def start : LineReader := ⟨0, 0, none⟩

/-- The logical line that the physical line `raw` starts or goes on with, before `raw` adds its
text. -/
def extend (r : LineReader) (raw : List Char) : LogicalLine :=
  let stop := r.offset + Text.byteLength (withoutLineEnd raw)
  match r.pending with
  | none => { text := [], line := r.line + 1, start := r.offset, stop }
  | some p => { p with line := r.line + 1, stop }

/-- Reads one physical line, which may complete a logical line. -/
def read (r : LineReader) (raw : List Char) : LineReader × Option LogicalLine :=
  let next : LineReader :=
    { line := r.line + 1, offset := r.offset + Text.byteLength raw, pending := r.pending }
  let part := content raw
  if isSkipped part then (next, none)
  else
    let line := r.extend raw
    match continued? part with
    | some head => ({ next with pending := some { line with text := line.text ++ head } }, none)
    | none => ({ next with pending := none }, some { line with text := line.text ++ part })

/-- Reads physical lines: the logical lines they complete, and where the reader then stands. -/
def readAll (r : LineReader) : List (List Char) → List LogicalLine × LineReader
  | [] => ([], r)
  | raw :: rest =>
    let (next, done) := r.read raw
    let (lines, last) := next.readAll rest
    (done.toList ++ lines, last)

end LineReader

/-- The logical lines of a script, and the one that still continues at its end. -/
def logicalLines (source : List Char) : List LogicalLine × Option LogicalLine :=
  let (lines, last) := LineReader.start.readAll (physicalLines source)
  (lines, last.pending)

end TwinTrees.Script
