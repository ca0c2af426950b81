import TwinTrees.Yaml.Token.Property
import TwinTrees.Yaml.Token.Scalar

/-!
# The stream of tokens

Tokens are read one by one. What can be a key without a question mark is known as a key only when
its colon is met; until then it is a candidate, and the tokens from there on wait in a queue. When
the colon comes, a key token is put in front of them. A candidate must end on its line and within
1024 characters; in a block mapping the first thing on a line must be a key.

There is one candidate place for each level of brackets, and one outside of them.
-/

namespace TwinTrees.Yaml

/-- The first token of what may turn out to be a key. -/
structure KeyCandidate where
  /-- Nothing else can stand there. -/
  required : Bool
  /-- The number of the token. -/
  token : Nat
  mark : Mark
  deriving DecidableEq, Repr

/-- The reading of tokens. -/
structure TokenStream where
  cursor : Cursor
  /-- Tokens that have been read and not been taken. -/
  waiting : List Token
  /-- The number of tokens that have been taken. -/
  taken : Nat
  started : Bool
  /-- The indentation of the innermost block collection, or -1. -/
  indent : Int
  /-- The indentations of the collections around it. -/
  outer : List Int
  /-- The candidate outside of brackets. -/
  candidate : Option KeyCandidate
  /-- For each level of brackets, from the innermost, the candidate outside of it. -/
  around : List (Option KeyCandidate)
  keyAllowed : Bool
  deriving Repr

namespace TokenStream

/-- The stream of a text. -/
def ofText (text : List Char) : TokenStream where
  cursor := ⟨text, .start⟩
  waiting := []
  taken := 0
  started := false
  indent := -1
  outer := []
  candidate := none
  around := []
  keyAllowed := false

/-- Whether the next token is inside brackets. -/
def inFlow (s : TokenStream) : Bool := !s.around.isEmpty

/-- The column of the cursor. -/
def column (s : TokenStream) : Int := s.cursor.mark.column

/-- The stream with a token at the end of its queue. -/
def push (s : TokenStream) (t : Token) : TokenStream := { s with waiting := s.waiting ++ [t] }

/-- The stream with a token before the one of this number. -/
def insert (s : TokenStream) (number : Nat) (t : Token) : TokenStream :=
  { s with waiting := s.waiting.insertIdx (number - s.taken) t }

/-- A token of no width where the cursor is. -/
def pointToken (s : TokenStream) (kind : TokenKind) : Token := ⟨kind, s.cursor.mark, s.cursor.mark⟩

/-- The stream after an indicator of so many characters. -/
def pushIndicator (s : TokenStream) (kind : TokenKind) (width : Nat) : TokenStream :=
  let after := s.cursor.skipMany width
  { s with cursor := after }.push ⟨kind, s.cursor.mark, after.mark⟩

/-- The fault of a required key without its colon. -/
def missingColon (s : TokenStream) (k : KeyCandidate) : Fault :=
  s.cursor.fault .missingColon .simpleKey k.mark

/-- A candidate that can still turn out to be a key. One that must be a key and cannot is a
fault. -/
def refresh (s : TokenStream) : Option KeyCandidate → Except Fault (Option KeyCandidate)
  | none => .ok none
  | some k =>
    if k.mark.line < s.cursor.mark.line || k.mark.index + 1024 < s.cursor.mark.index then
      if k.required then .error (s.missingColon k) else .ok none
    else .ok (some k)

/-- The stream without the candidates that can no longer be keys. The outermost is looked at
first. -/
def dropStale (s : TokenStream) : Except Fault TokenStream := do
  let around ← s.around.reverse.mapM s.refresh
  let candidate ← s.refresh s.candidate
  return { s with around := around.reverse, candidate }

/-- The stream without its candidate. -/
def dropCandidate (s : TokenStream) : Except Fault TokenStream :=
  match s.candidate with
  | some k => if k.required then .error (s.missingColon k) else .ok { s with candidate := none }
  | none => .ok s

/-- The stream with the next token as a candidate, if it may be one. -/
def saveCandidate (s : TokenStream) : Except Fault TokenStream := do
  if !s.keyAllowed then return s
  let required := !s.inFlow && s.indent == s.column
  let s' ← s.dropCandidate
  return { s' with candidate := some ⟨required, s.taken + s.waiting.length, s.cursor.mark⟩ }

/-- The stream with a new block collection, if the column is deeper than the indentation. `number`
is the number of the first token in the collection, if there is one already. -/
def openBlock (s : TokenStream) (column : Nat) (number : Option Nat) (kind : TokenKind)
    (mark : Mark) : TokenStream :=
  if s.inFlow || (column : Int) ≤ s.indent then s
  else
    let s := { s with outer := s.indent :: s.outer, indent := column }
    match number with
    | some number => s.insert number ⟨kind, mark, mark⟩
    | none => s.push ⟨kind, mark, mark⟩

/-- The ends of the block collections that are indented more than `column`, from the
indentation `indent` on. -/
def closedBlocks (column : Int) : Int → List Int → Nat × Int × List Int
  | indent, [] => (0, indent, [])
  | indent, above :: outer =>
    if column < indent then
      let (n, indent, outer) := closedBlocks column above outer
      (n + 1, indent, outer)
    else (0, indent, above :: outer)

/-- The stream with the block collections closed that are indented more than `column`. -/
def closeBlocks (s : TokenStream) (column : Int) : TokenStream :=
  if s.inFlow then s
  else
    let (n, indent, outer) := closedBlocks column s.indent s.outer
    { s with
      indent, outer, waiting := s.waiting ++ List.replicate n (s.pointToken .blockEnd) }

/-- Skips white space, comments and line breaks, at most so many times. A tab does not count as
white space where a key may start. After a line break outside of brackets a key may start. -/
def skipGap : Nat → TokenStream → TokenStream
  | 0, s => s
  | fuel + 1, s =>
    let c := if s.cursor.mark.index == 0 && s.cursor.isAt '\ufeff' then s.cursor.skip else s.cursor
    let tabs := s.inFlow || !s.keyAllowed
    let c := (c.skipWhile fun x => x == some ' ' || tabs && x == some '\t').skipComment
    if isBreak c.head? then
      skipGap fuel { s with cursor := c.skipBreak, keyAllowed := s.keyAllowed || !s.inFlow }
    else { s with cursor := c }

/-- The stream after its end. -/
def readEnd (s : TokenStream) : Except Fault TokenStream := do
  let mark := s.cursor.mark
  let mark := if mark.column = 0 then mark else mark.nextLine 0
  let s ← ({ s with cursor := ⟨[], mark⟩ }.closeBlocks (-1)).dropCandidate
  return { s with keyAllowed := false }.push (s.pointToken .streamEnd)

/-- Reads a directive. -/
def readDirectiveLine (s : TokenStream) : Except Fault TokenStream := do
  let s ← (s.closeBlocks (-1)).dropCandidate
  let (token, cursor) ← readDirective s.cursor
  return { s with cursor, keyAllowed := false }.push token

/-- Reads the mark at the start or at the end of a document. -/
def readDocumentMark (s : TokenStream) (kind : TokenKind) : Except Fault TokenStream := do
  let s ← (s.closeBlocks (-1)).dropCandidate
  return { s with keyAllowed := false }.pushIndicator kind 3

/-- Reads an opening bracket. -/
def readOpening (s : TokenStream) (kind : TokenKind) : Except Fault TokenStream := do
  let s ← s.saveCandidate
  return { s with
    around := s.candidate :: s.around, candidate := none, keyAllowed := true }.pushIndicator kind 1

/-- Reads a closing bracket. -/
def readClosing (s : TokenStream) (kind : TokenKind) : Except Fault TokenStream := do
  let s ← s.dropCandidate
  let s := match s.around with
    | candidate :: around => { s with candidate, around }
    | [] => s
  return { s with keyAllowed := false }.pushIndicator kind 1

/-- Reads a comma. -/
def readComma (s : TokenStream) : Except Fault TokenStream := do
  let s ← s.dropCandidate
  return { s with keyAllowed := true }.pushIndicator .flowEntry 1

/-- The stream where an entry of a block collection may start. -/
def startEntry (s : TokenStream) (kind : TokenKind) (problem : Problem) :
    Except Fault TokenStream :=
  if s.inFlow then .ok s
  else if !s.keyAllowed then .error (.malformed problem s.cursor.mark none)
  else .ok (s.openBlock s.cursor.mark.column none kind s.cursor.mark)

/-- Reads the dash before an entry of a block sequence. -/
def readDash (s : TokenStream) : Except Fault TokenStream := do
  let s ← s.startEntry .blockSequenceStart .entryNotAllowed
  let s ← s.dropCandidate
  return { s with keyAllowed := true }.pushIndicator .blockEntry 1

/-- Reads the question mark before a key. -/
def readQuestion (s : TokenStream) : Except Fault TokenStream := do
  let s ← s.startEntry .blockMappingStart .keyNotAllowed
  let s ← s.dropCandidate
  return { s with keyAllowed := !s.inFlow }.pushIndicator .key 1

/-- Reads the colon before a value. The candidate, if there is one, is a key. -/
def readColon (s : TokenStream) : Except Fault TokenStream := do
  match s.candidate with
  | some k =>
    let s := (s.insert k.token ⟨.key, k.mark, k.mark⟩).openBlock k.mark.column (some k.token)
      .blockMappingStart k.mark
    return { s with candidate := none, keyAllowed := false }.pushIndicator .value 1
  | none =>
    let s ← s.startEntry .blockMappingStart .valueNotAllowed
    return { s with keyAllowed := !s.inFlow }.pushIndicator .value 1

/-- Reads a token that may be the start of a key. -/
def readKeyPart (s : TokenStream) (read : Cursor → Except Fault (Token × Cursor)) :
    Except Fault TokenStream := do
  let s ← s.saveCandidate
  let (token, cursor) ← read s.cursor
  return { s with cursor, keyAllowed := false }.push token

/-- Reads a quoted scalar. -/
def readQuotedToken (single : Bool) (c : Cursor) : Except Fault (Token × Cursor) := do
  let (text, after) ← readQuoted single c
  let style := if single then .singleQuoted else .doubleQuoted
  return (⟨.scalar text style, c.mark, after.mark⟩, after)

/-- Reads a block scalar. -/
def readBlockToken (s : TokenStream) (folded : Bool) : Except Fault TokenStream := do
  let s ← s.dropCandidate
  let (text, cursor) ← readBlock folded s.indent s.cursor
  let style := if folded then .folded else .literal
  return { s with cursor, keyAllowed := true }.push
    ⟨.scalar text style, s.cursor.mark, cursor.mark⟩

/-- Reads a plain scalar. A key may start after it if it ends with a line. -/
def readPlainToken (s : TokenStream) : Except Fault TokenStream := do
  let s ← s.saveCandidate
  let scalar ← readPlain s.inFlow (s.indent + 1) s.cursor
  return { s with cursor := scalar.after, keyAllowed := scalar.broken }.push
    ⟨.scalar scalar.text .plain, s.cursor.mark, scalar.stop⟩

/-- Characters that cannot start a plain scalar, or only before certain others. -/
def isIndicator (x : Char) : Bool :=
  ['-', '?', ':', ',', '[', ']', '{', '}', '#', '&', '*', '!', '|', '>', '\'', '"', '%', '@',
    '`'].contains x

/-- Whether a plain scalar starts with these characters. -/
def startsPlain (inFlow : Bool) (x : Char) (next : Option Char) : Bool :=
  !(isGap (some x) || isIndicator x) || x == '-' && !isSpaceOrTab next ||
    !inFlow && (x == '?' || x == ':') && !isGap next

/-- Reads the token that starts with `x`. -/
def readToken (s : TokenStream) (x : Char) : Except Fault TokenStream :=
  let c := s.cursor
  let next := c.char? 1
  if c.mark.column == 0 && x == '%' then s.readDirectiveLine
  else if c.isAtIndicator '-' then s.readDocumentMark .documentStart
  else if c.isAtIndicator '.' then s.readDocumentMark .documentEnd
  else if x == '[' then s.readOpening .flowSequenceStart
  else if x == '{' then s.readOpening .flowMappingStart
  else if x == ']' then s.readClosing .flowSequenceEnd
  else if x == '}' then s.readClosing .flowMappingEnd
  else if x == ',' then s.readComma
  else if x == '-' && isGap next then s.readDash
  else if x == '?' && (s.inFlow || isGap next) then s.readQuestion
  else if x == ':' && (s.inFlow || isGap next) then s.readColon
  else if x == '*' then s.readKeyPart (readAnchor true)
  else if x == '&' then s.readKeyPart (readAnchor false)
  else if x == '!' then s.readKeyPart (readTag s.inFlow)
  else if x == '|' && !s.inFlow then s.readBlockToken false
  else if x == '>' && !s.inFlow then s.readBlockToken true
  else if x == '\'' then s.readKeyPart (readQuotedToken true)
  else if x == '"' then s.readKeyPart (readQuotedToken false)
  else if startsPlain s.inFlow x next then s.readPlainToken
  else .error (c.fault .strangeCharacter .nextToken c.mark)

/-- Reads one more token. -/
def readMore (s : TokenStream) : Except Fault TokenStream := do
  if !s.started then
    return { s with started := true, keyAllowed := true }.push (s.pointToken .streamStart)
  let s ← (skipGap (s.cursor.rest.length + 1) s).dropStale
  let s := s.closeBlocks s.column
  match s.cursor.head? with
  | none => s.readEnd
  | some x => s.readToken x

/-- Whether the next token is a candidate for a key, or there is none. -/
def needsMore (s : TokenStream) : Bool :=
  s.waiting.isEmpty || (s.candidate :: s.around).any fun k => k.any fun k => k.token == s.taken

/-- Reads, at most so many times, until the next token is known. -/
def fill : Nat → TokenStream → Except Fault TokenStream
  | 0, s => .ok s
  | fuel + 1, s => do
    let s ← if s.waiting.isEmpty then pure s else s.dropStale
    if s.needsMore then fill fuel (← s.readMore) else return s

/-- The next token and the stream after it. -/
def next (s : TokenStream) : Except Fault (Token × TokenStream) := do
  let s ← fill (s.cursor.rest.length + 3) s
  match s.waiting with
  | t :: waiting => return (t, { s with waiting, taken := s.taken + 1 })
  | [] => return (s.pointToken .streamEnd, s)

end TokenStream

end TwinTrees.Yaml
