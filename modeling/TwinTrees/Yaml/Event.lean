import TwinTrees.Yaml.Token.Stream

/-!
# Events of YAML texts

The structure of a text as a sequence of events: documents start and end, collections start and end,
and scalars and aliases stand in them. `EventStream.next` gives the next event and its place. What
the grammar expects next is the `Expectation` of the stream; those of the collections around it wait
on a stack.
-/

namespace TwinTrees.Yaml

/-- An anchor and a tag, each if there is one. -/
structure Properties where
  anchor : Option (List Char)
  tag : Option (List Char)
  deriving DecidableEq, Repr

inductive Event
  | streamStart
  | streamEnd
  | documentStart
  | documentEnd
  | aliasTo (name : List Char)
  | scalar (properties : Properties) (text : List Char) (style : ScalarStyle)
  | sequenceStart (properties : Properties)
  | sequenceEnd
  | mappingStart (properties : Properties)
  | mappingEnd
  deriving DecidableEq, Repr

/-- What the grammar expects next. -/
inductive Expectation
  | streamStart
  | firstDocument
  | documentStart
  | documentContent
  | documentEnd
  | blockSequenceFirst
  | blockSequenceEntry
  | indentlessEntry
  | blockMappingFirst
  | blockMappingKey
  | blockMappingValue
  | flowSequenceFirst
  | flowSequenceEntry
  | pairKey
  | pairValue
  | pairEnd
  | flowMappingFirst
  | flowMappingKey
  | flowMappingValue
  | flowMappingNoValue
  | blockNode
  | nothing
  deriving DecidableEq, Repr

/-- The reading of events. -/
structure EventStream where
  tokens : TokenStream
  /-- The next token if it has been looked at. -/
  ahead : Option Token
  expected : Expectation
  /-- What is expected after the nodes that are being read. -/
  pending : List Expectation
  /-- Where the collections that are being read start. -/
  starts : List Mark
  /-- The tag directives of the document. -/
  handles : List (List Char × List Char)
  deriving Repr

/-- A step of the reading of events. -/
abbrev Reading := StateT EventStream (Except Fault)

namespace EventStream

/-- The stream of a text. -/
def ofText (text : List Char) : EventStream where
  tokens := .ofText text
  ahead := none
  expected := .streamStart
  pending := []
  starts := []
  handles := []

/-- The next token. -/
def peek : Reading Token := do
  let s ← get
  match s.ahead with
  | some t => return t
  | none =>
    let (t, tokens) ← s.tokens.next
    set { s with tokens, ahead := some t }
    return t

/-- Takes the next token. -/
def advance : Reading Unit := modify fun s => { s with ahead := none }

/-- The token after the next one, which is taken. -/
def peekAfter : Reading Token := do
  advance
  peek

def expect (e : Expectation) : Reading Unit := modify fun s => { s with expected := e }

/-- Goes on with what waits on the stack. -/
def resume : Reading Unit := modify fun s =>
  match s.pending with
  | e :: pending => { s with expected := e, pending }
  | [] => { s with expected := .nothing }

/-- Puts what is expected after a node on the stack. -/
def suspend (e : Expectation) : Reading Unit := modify fun s => { s with pending := e :: s.pending }

/-- Notes where a collection starts. -/
def noteStart (m : Mark) : Reading Unit := modify fun s => { s with starts := m :: s.starts }

/-- Where the innermost collection started, which has ended. -/
def dropStart : Reading Mark := do
  let s ← get
  set { s with starts := s.starts.drop 1 }
  return s.starts.headD .start

/-- The fault of a token that does not belong in the collection that is being read. -/
def misplaced {α : Type} (activity : Activity) (problem : Problem) (t : Token) : Reading α := do
  let began ← dropStart
  throw (.malformed problem t.start (some (activity, began)))

/-- A scalar that is not written. -/
def emptyScalar (m : Mark) : Event × Mark := (.scalar ⟨none, none⟩ [] .plain, m)

/-- The tag that a handle and a suffix stand for. -/
def resolveTag (start place : Mark) (handle suffix : List Char) : Reading (List Char) := do
  if handle.isEmpty then return suffix
  match (← get).handles.find? fun h => h.1 == handle with
  | some (_, address) => return address ++ suffix
  | none => throw (.malformed .undefinedHandle place (some (.node, start)))

/-- The anchor and the tag before a node, in either order, and the place and the token after
them. -/
def readProperties : Reading (Properties × Mark × Token) := do
  let first ← peek
  match first.kind with
  | .anchor name =>
    let second ← peekAfter
    match second.kind with
    | .tag handle suffix =>
      let t ← peekAfter
      return (⟨some name, some (← resolveTag first.start second.start handle suffix)⟩,
        first.start, t)
    | _ => return (⟨some name, none⟩, first.start, second)
  | .tag handle suffix =>
    let second ← peekAfter
    match second.kind with
    | .anchor name =>
      let t ← peekAfter
      return (⟨some name, some (← resolveTag first.start first.start handle suffix)⟩,
        first.start, t)
    | _ =>
      return (⟨none, some (← resolveTag first.start first.start handle suffix)⟩,
        first.start, second)
  | _ => return (⟨none, none⟩, first.start, first)

/-- The properties of a scalar. A lone exclamation mark is no tag. -/
def scalarProperties (p : Properties) : Properties :=
  if p.tag = some ['!'] then { p with tag := none } else p

/-- The start of a collection. -/
def openCollection (e : Expectation) (event : Event) (m : Mark) : Reading (Event × Mark) := do
  expect e
  return (event, m)

/-- Reads a node, in a block or between brackets. `indentless` says whether a sequence may be
indented no more than the mapping it is in. -/
def readNode (block indentless : Bool) : Reading (Event × Mark) := do
  let t ← peek
  match t.kind with
  | .aliasTo name =>
    resume
    advance
    return (.aliasTo name, t.start)
  | _ =>
    let (p, start, t) ← readProperties
    match t.kind, indentless, block with
    | .blockEntry, true, _ => openCollection .indentlessEntry (.sequenceStart p) start
    | .scalar text style, _, _ =>
      resume
      advance
      return (.scalar (scalarProperties p) text style, start)
    | .flowSequenceStart, _, _ => openCollection .flowSequenceFirst (.sequenceStart p) start
    | .flowMappingStart, _, _ => openCollection .flowMappingFirst (.mappingStart p) start
    | .blockSequenceStart, _, true => openCollection .blockSequenceFirst (.sequenceStart p) start
    | .blockMappingStart, _, true => openCollection .blockMappingFirst (.mappingStart p) start
    | _, _, _ =>
      if p = ⟨none, none⟩ then
        throw (.malformed .missingContent t.start
          (some (if block then .blockNode else .flowNode, start)))
      resume
      return (.scalar p [] .plain, start)

/-- Reads a node, after which `after` is expected, unless the next token is one of those before
which a node is left out. -/
def readNodeUnless (left : TokenKind → Bool) (m : Mark) (after : Expectation)
    (block indentless : Bool) : Reading (Event × Mark) := do
  let t ← peek
  if left t.kind then
    expect after
    return emptyScalar m
  suspend after
  readNode block indentless

/-- The end of a collection. -/
def closeCollection (event : Event) (t : Token) : Reading (Event × Mark) := do
  resume
  let _ ← dropStart
  advance
  return (event, t.start)

/-- Reads the directives before a document. -/
def readDirectives : Nat → Bool → Reading Unit
  | 0, _ => return
  | fuel + 1, versioned => do
    let t ← peek
    match t.kind with
    | .version major minor =>
      if versioned then throw (.malformed .repeatedVersion t.start none)
      if major ≠ 1 ∨ (minor ≠ 1 ∧ minor ≠ 2) then throw (.malformed .wrongVersion t.start none)
      advance
      readDirectives fuel true
    | .tagDirective handle address =>
      if (← get).handles.any fun h => h.1 == handle then
        throw (.malformed .repeatedHandle t.start none)
      modify fun s => { s with handles := s.handles ++ [(handle, address)] }
      advance
      readDirectives fuel versioned
    | _ => return

/-- The handles that need no directive. -/
def standardHandles : List (List Char × List Char) :=
  [(['!'], ['!']), (['!', '!'], "tag:yaml.org,2002:".toList)]

/-- Reads the directives before a document, and adds the handles that need none. -/
def readAllDirectives : Reading Unit := do
  readDirectives ((← get).tokens.cursor.rest.length + 2) false
  modify fun s => { s with
    handles := s.handles ++ standardHandles.filter fun h => !s.handles.any fun k => k.1 == h.1 }

def isDirective : TokenKind → Bool
  | .version .. | .tagDirective .. => true
  | _ => false

/-- Skips the marks that say again that a document has ended. -/
def skipDocumentEnds : Nat → Reading Unit
  | 0 => return
  | fuel + 1 => do
    if (← peek).kind = .documentEnd then
      advance
      skipDocumentEnds fuel

/-- Reads the start of a document, or the end of the stream. The first document needs no mark
unless it has directives. -/
def readDocumentStart (first : Bool) : Reading (Event × Mark) := do
  if !first then skipDocumentEnds ((← get).tokens.cursor.rest.length + 2)
  let t ← peek
  if t.kind = .streamEnd then
    expect .nothing
    advance
    return (.streamEnd, t.start)
  else if first && !(isDirective t.kind) && t.kind ≠ .documentStart then
    readAllDirectives
    suspend .documentEnd
    expect .blockNode
    return (.documentStart, t.start)
  else
    readAllDirectives
    let mark ← peek
    if mark.kind ≠ .documentStart then
      throw (.malformed .missingDocumentStart mark.start none)
    suspend .documentEnd
    expect .documentContent
    advance
    return (.documentStart, t.start)

/-- Reads the content of a document after its mark. -/
def readDocumentContent : Reading (Event × Mark) := do
  let t ← peek
  if isDirective t.kind || t.kind = .documentStart || t.kind = .documentEnd ||
      t.kind = .streamEnd then
    resume
    return emptyScalar t.start
  readNode true false

/-- Reads the end of a document. -/
def readDocumentEnd : Reading (Event × Mark) := do
  let t ← peek
  if t.kind = .documentEnd then advance
  modify fun s => { s with handles := [] }
  expect .documentStart
  return (.documentEnd, t.start)

/-- Takes the token that starts a collection. -/
def enterCollection : Reading Unit := do
  noteStart (← peek).start
  advance

/-- Reads an entry of a block sequence, or its end. -/
def readBlockEntry : Reading (Event × Mark) := do
  let t ← peek
  match t.kind with
  | .blockEntry =>
    advance
    readNodeUnless (fun k => k = .blockEntry || k = .blockEnd) t.stop .blockSequenceEntry true false
  | .blockEnd => closeCollection .sequenceEnd t
  | _ => misplaced .blockCollection .missingDash t

/-- Reads an entry of a sequence that is not indented, or its end. -/
def readIndentlessEntry : Reading (Event × Mark) := do
  let t ← peek
  match t.kind with
  | .blockEntry =>
    advance
    readNodeUnless (fun k => k = .blockEntry || k = .key || k = .value || k = .blockEnd) t.stop
      .indentlessEntry true false
  | _ =>
    resume
    return (.sequenceEnd, t.start)

/-- Reads a key of a block mapping, or its end. -/
def readBlockKey : Reading (Event × Mark) := do
  let t ← peek
  match t.kind with
  | .key =>
    advance
    readNodeUnless (fun k => k = .key || k = .value || k = .blockEnd) t.stop .blockMappingValue
      true true
  | .blockEnd => closeCollection .mappingEnd t
  | _ => misplaced .blockMapping .missingKey t

/-- Reads a value of a block mapping. -/
def readBlockValue : Reading (Event × Mark) := do
  let t ← peek
  match t.kind with
  | .value =>
    advance
    readNodeUnless (fun k => k = .key || k = .value || k = .blockEnd) t.stop .blockMappingKey
      true true
  | _ =>
    expect .blockMappingKey
    return emptyScalar t.start

/-- Takes the comma before an entry between brackets, which all but the first entry need. -/
def readSeparator (first : Bool) (close : TokenKind) (activity : Activity) (problem : Problem) :
    Reading Token := do
  let t ← peek
  if first || t.kind = close then return t
  if t.kind = .flowEntry then peekAfter else misplaced activity problem t

/-- Reads an entry of a sequence in brackets, or its end. -/
def readFlowEntry (first : Bool) : Reading (Event × Mark) := do
  let t ← readSeparator first .flowSequenceEnd .flowSequence .missingCommaOrBracket
  match t.kind with
  | .flowSequenceEnd => closeCollection .sequenceEnd t
  | .key =>
    expect .pairKey
    advance
    return (.mappingStart ⟨none, none⟩, t.start)
  | _ =>
    suspend .flowSequenceEntry
    readNode false false

/-- Reads the key of a pair in a sequence in brackets. -/
def readPairKey : Reading (Event × Mark) := do
  let t ← peek
  match t.kind with
  | .value | .flowEntry | .flowSequenceEnd =>
    advance
    expect .pairValue
    return emptyScalar t.stop
  | _ =>
    suspend .pairValue
    readNode false false

/-- Reads a value between brackets, after which `after` is expected. -/
def readFlowValue (close : TokenKind) (after : Expectation) : Reading (Event × Mark) := do
  let t ← peek
  if t.kind = .value then
    let t ← peekAfter
    readNodeUnless (fun k => k = .flowEntry || k = close) t.start after false false
  else
    expect after
    return emptyScalar t.start

/-- Reads a key of a mapping in braces, or its end. -/
def readFlowKey (first : Bool) : Reading (Event × Mark) := do
  let t ← readSeparator first .flowMappingEnd .flowMapping .missingCommaOrBrace
  match t.kind with
  | .flowMappingEnd => closeCollection .mappingEnd t
  | .key =>
    let t ← peekAfter
    readNodeUnless (fun k => k = .value || k = .flowEntry || k = .flowMappingEnd) t.start
      .flowMappingValue false false
  | _ =>
    suspend .flowMappingNoValue
    readNode false false

/-- Reads the next event. -/
def readEvent : Reading (Event × Mark) := do
  match (← get).expected with
  | .streamStart =>
    let t ← peek
    expect .firstDocument
    advance
    return (.streamStart, t.start)
  | .firstDocument => readDocumentStart true
  | .documentStart => readDocumentStart false
  | .documentContent => readDocumentContent
  | .documentEnd => readDocumentEnd
  | .blockNode => readNode true false
  | .blockSequenceFirst => enterCollection; readBlockEntry
  | .blockSequenceEntry => readBlockEntry
  | .indentlessEntry => readIndentlessEntry
  | .blockMappingFirst => enterCollection; readBlockKey
  | .blockMappingKey => readBlockKey
  | .blockMappingValue => readBlockValue
  | .flowSequenceFirst => enterCollection; readFlowEntry true
  | .flowSequenceEntry => readFlowEntry false
  | .pairKey => readPairKey
  | .pairValue => readFlowValue .flowSequenceEnd .pairEnd
  | .pairEnd =>
    expect .flowSequenceEntry
    return (.mappingEnd, (← peek).start)
  | .flowMappingFirst => enterCollection; readFlowKey true
  | .flowMappingKey => readFlowKey false
  | .flowMappingValue => readFlowValue .flowMappingEnd .flowMappingKey
  | .flowMappingNoValue =>
    expect .flowMappingKey
    return emptyScalar (← peek).start
  | .nothing => return (.streamEnd, (← get).tokens.cursor.mark)

/-- The next event with its place, and the stream after it. -/
def next (s : EventStream) : Except Fault ((Event × Mark) × EventStream) := readEvent.run s

end EventStream

end TwinTrees.Yaml
