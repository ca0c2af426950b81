/-!
# Faults of YAML texts

A text that is not YAML is refused with a problem and the place where it was noticed; most problems
also come with what was being read and where that began. A place is shown by line and column,
counted from one, and not at all if it is the start of the text.
-/

namespace TwinTrees.Yaml

/-- A place in a text. Lines and columns are counted from zero, and so are characters. -/
structure Mark where
  index : Nat
  line : Nat
  column : Nat
  deriving DecidableEq, Repr

namespace Mark

/-- The start of a text. -/
def start : Mark := ⟨0, 0, 0⟩

/-- Whether the place is on the first column of the first line. -/
def isStart (m : Mark) : Bool := m.line == 0 && m.column == 0

def text (m : Mark) : String := s!"line {m.line + 1} column {m.column + 1}"

/-- The place after a message; nothing if it is the start. -/
def suffix (m : Mark) : String := if m.isStart then "" else s!" at {m.text}"

/-- The place after a character that does not end a line. -/
def next (m : Mark) : Mark := ⟨m.index + 1, m.line, m.column + 1⟩

/-- The place after a line break of so many characters. -/
def nextLine (m : Mark) (width : Nat) : Mark := ⟨m.index + width, m.line + 1, 0⟩

end Mark

/-- What was being read. -/
inductive Activity
  | nextToken
  | simpleKey
  | directive
  | versionDirective
  | tagDirective
  | tagDirectiveHandle
  | tagDirectiveMark
  | tagDirectiveAddress
  | anchor
  | aliasTo
  | tag
  | tagAddress
  | blockScalar
  | quotedScalar
  | escape
  | plainScalar
  | node
  | blockNode
  | flowNode
  | blockCollection
  | blockMapping
  | flowSequence
  | flowMapping
  deriving DecidableEq, Repr

def Activity.text : Activity → String
  | nextToken => "while scanning for the next token"
  | simpleKey => "while scanning a simple key"
  | directive => "while scanning a directive"
  | versionDirective => "while scanning a %YAML directive"
  | tagDirective => "while scanning a %TAG directive"
  | tagDirectiveHandle => "while scanning a tag directive"
  | tagDirectiveMark => "while parsing a tag directive"
  | tagDirectiveAddress => "while parsing a %TAG directive"
  | anchor => "while scanning an anchor"
  | aliasTo => "while scanning an alias"
  | tag => "while scanning a tag"
  | tagAddress => "while parsing a tag"
  | blockScalar => "while scanning a block scalar"
  | quotedScalar => "while scanning a quoted scalar"
  | escape => "while parsing a quoted scalar"
  | plainScalar => "while scanning a plain scalar"
  | node => "while parsing a node"
  | blockNode => "while parsing a block node"
  | flowNode => "while parsing a flow node"
  | blockCollection => "while parsing a block collection"
  | blockMapping => "while parsing a block mapping"
  | flowSequence => "while parsing a flow sequence"
  | flowMapping => "while parsing a flow mapping"

/-- What is wrong with a text. -/
inductive Problem
  | strangeCharacter
  | missingColon
  | entryNotAllowed
  | keyNotAllowed
  | valueNotAllowed
  | missingDirectiveName
  | directiveNameEnd
  | unknownDirective
  | missingLineEnd
  | missingDot
  | missingVersion
  | longVersion
  | missingSpace
  | missingSpaceOrLineEnd
  | missingAlphanumeric
  | missingExclamation
  | missingAngle
  | missingAddress
  | missingOctet
  | wrongFirstOctet
  | wrongOctet
  | zeroIndentation
  | tabAsIndentation
  | tabBelowIndentation
  | documentInQuotes
  | endInQuotes
  | unknownEscape
  | missingHexDigit
  | wrongCodePoint
  | colonInFlow
  | missingDocumentStart
  | missingContent
  | missingDash
  | missingKey
  | missingCommaOrBracket
  | missingCommaOrBrace
  | undefinedHandle
  | repeatedVersion
  | repeatedHandle
  | wrongVersion
  deriving DecidableEq, Repr

def Problem.text : Problem → String
  | strangeCharacter => "found character that cannot start any token"
  | missingColon => "could not find expected ':'"
  | entryNotAllowed => "block sequence entries are not allowed in this context"
  | keyNotAllowed => "mapping keys are not allowed in this context"
  | valueNotAllowed => "mapping values are not allowed in this context"
  | missingDirectiveName => "could not find expected directive name"
  | directiveNameEnd => "found unexpected non-alphabetical character"
  | unknownDirective => "found unknown directive name"
  | missingLineEnd => "did not find expected comment or line break"
  | missingDot => "did not find expected digit or '.' character"
  | missingVersion => "did not find expected version number"
  | longVersion => "found extremely long version number"
  | missingSpace => "did not find expected whitespace"
  | missingSpaceOrLineEnd => "did not find expected whitespace or line break"
  | missingAlphanumeric => "did not find expected alphabetic or numeric character"
  | missingExclamation => "did not find expected '!'"
  | missingAngle => "did not find the expected '>'"
  | missingAddress => "did not find expected tag URI"
  | missingOctet => "did not find URI escaped octet"
  | wrongFirstOctet => "found an incorrect leading UTF-8 octet"
  | wrongOctet => "found an incorrect trailing UTF-8 octet"
  | zeroIndentation => "found an indentation indicator equal to 0"
  | tabAsIndentation => "found a tab character where an indentation space is expected"
  | tabBelowIndentation => "found a tab character that violates indentation"
  | documentInQuotes => "found unexpected document indicator"
  | endInQuotes => "found unexpected end of stream"
  | unknownEscape => "found unknown escape character"
  | missingHexDigit => "did not find expected hexdecimal number"
  | wrongCodePoint => "found invalid Unicode character escape code"
  | colonInFlow => "found unexpected ':'"
  | missingDocumentStart => "did not find expected <document start>"
  | missingContent => "did not find expected node content"
  | missingDash => "did not find expected '-' indicator"
  | missingKey => "did not find expected key"
  | missingCommaOrBracket => "did not find expected ',' or ']'"
  | missingCommaOrBrace => "did not find expected ',' or '\x7d'"
  | undefinedHandle => "found undefined tag handle"
  | repeatedVersion => "found duplicate %YAML directive"
  | repeatedHandle => "found duplicate %TAG directive"
  | wrongVersion => "found incompatible YAML document"

/-- Why a text is not a YAML stream. -/
inductive Fault
  /-- A character that no YAML text holds, at so many bytes from the start. -/
  | character (offset : Nat)
  | malformed (problem : Problem) (place : Mark) (during : Option (Activity × Mark))
  | unknownAnchor (place : Mark)
  deriving DecidableEq, Repr

def Fault.message : Fault → String
  | character 0 => "control characters are not allowed"
  | character offset => s!"control characters are not allowed at position {offset}"
  | malformed problem place none => problem.text ++ place.suffix
  | malformed problem place (some (activity, began)) =>
    problem.text ++ place.suffix ++ ", " ++ activity.text ++
      (if began.line = place.line ∧ began.column = place.column then "" else began.suffix)
  | unknownAnchor place => "unknown anchor" ++ place.suffix

end TwinTrees.Yaml
