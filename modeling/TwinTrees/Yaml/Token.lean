import TwinTrees.Yaml.Fault

/-!
# Tokens of YAML texts

The indicators, directives, properties and scalars that a text is made of, each with the place where
it starts and the place where it ends. Indentation shows as tokens too: a block collection starts
before its first entry and ends where the indentation falls back.

`Cursor` is a place in a text together with the text from there on.
-/

namespace TwinTrees.Yaml

/-- How a scalar is written. -/
inductive ScalarStyle
  | plain
  | singleQuoted
  | doubleQuoted
  | literal
  | folded
  deriving DecidableEq, Repr

inductive TokenKind
  | streamStart
  | streamEnd
  | version (major minor : Nat)
  | tagDirective (handle address : List Char)
  | documentStart
  | documentEnd
  | blockSequenceStart
  | blockMappingStart
  | blockEnd
  | flowSequenceStart
  | flowSequenceEnd
  | flowMappingStart
  | flowMappingEnd
  | blockEntry
  | flowEntry
  | key
  | value
  | aliasTo (name : List Char)
  | anchor (name : List Char)
  | tag (handle suffix : List Char)
  | scalar (text : List Char) (style : ScalarStyle)
  deriving DecidableEq, Repr

structure Token where
  kind : TokenKind
  start : Mark
  stop : Mark
  deriving DecidableEq, Repr

/-- A place in a text and what follows it. -/
structure Cursor where
  rest : List Char
  mark : Mark
  deriving DecidableEq, Repr

/-- A space or a tab. -/
def isSpaceOrTab : Option Char → Bool
  | some ' ' | some '\t' => true
  | _ => false

/-- A character that ends a line. -/
def isBreak : Option Char → Bool
  | some '\n' | some '\r' | some '\u0085' | some '\u2028' | some '\u2029' => true
  | _ => false

/-- The end of a line or of the text. -/
def isLineEnd (c : Option Char) : Bool := c.isNone || isBreak c

/-- What can stand between two tokens, or the end of the text. -/
def isGap (c : Option Char) : Bool := isSpaceOrTab c || isLineEnd c

/-- A character of names of anchors and directives. -/
def isNameChar : Option Char → Bool
  | some c => c.isAlphanum || c == '_' || c == '-'
  | none => false

/-- The value of a digit in base sixteen. -/
def hexValue? (c : Char) : Option Nat :=
  if c.isDigit then some (c.toNat - '0'.toNat)
  else if 'a' ≤ c ∧ c ≤ 'f' then some (c.toNat - 'a'.toNat + 10)
  else if 'A' ≤ c ∧ c ≤ 'F' then some (c.toNat - 'A'.toNat + 10)
  else none

namespace Cursor

/-- The character so many places further on. -/
def char? (c : Cursor) (n : Nat) : Option Char := c.rest[n]?

/-- The next character. -/
def head? (c : Cursor) : Option Char := c.rest.head?

/-- Whether this character is next. -/
def isAt (c : Cursor) (x : Char) : Bool := c.head? == some x

/-- The cursor after the next character, which does not end a line. -/
def skip (c : Cursor) : Cursor :=
  match c.rest with
  | [] => c
  | _ :: rest => ⟨rest, c.mark.next⟩

/-- The cursor so many characters further on. -/
def skipMany : Nat → Cursor → Cursor
  | 0, c => c
  | n + 1, c => skipMany n c.skip

/-- The characters from here on that satisfy `p`, and the cursor after them. -/
def spanFrom (p : Option Char → Bool) : List Char → Mark → List Char × Cursor
  | [], m => ([], ⟨[], m⟩)
  | c :: rest, m =>
    if p (some c) then
      let (found, after) := spanFrom p rest m.next
      (c :: found, after)
    else ([], ⟨c :: rest, m⟩)

/-- The next characters that satisfy `p`, none of which ends a line, and the cursor after them. -/
def span (c : Cursor) (p : Option Char → Bool) : List Char × Cursor := spanFrom p c.rest c.mark

/-- The cursor after the next characters that satisfy `p`. -/
def skipWhile (c : Cursor) (p : Option Char → Bool) : Cursor := (c.span p).2

/-- The next line break as it counts in a scalar, and the cursor after it. -/
def readBreak (c : Cursor) : List Char × Cursor :=
  match c.rest with
  | '\r' :: '\n' :: rest => (['\n'], ⟨rest, c.mark.nextLine 2⟩)
  | '\r' :: rest | '\n' :: rest | '\u0085' :: rest => (['\n'], ⟨rest, c.mark.nextLine 1⟩)
  | '\u2028' :: rest => (['\u2028'], ⟨rest, c.mark.nextLine 1⟩)
  | '\u2029' :: rest => (['\u2029'], ⟨rest, c.mark.nextLine 1⟩)
  | _ => ([], c)

/-- The cursor after the next line break. -/
def skipBreak (c : Cursor) : Cursor := c.readBreak.2

/-- The cursor at the end of the line, if there is a comment here. -/
def skipComment (c : Cursor) : Cursor :=
  if c.isAt '#' then c.skipWhile fun x => !isLineEnd x else c

/-- Whether three of this character stand here alone, at the start of a line. -/
def isAtIndicator (c : Cursor) (x : Char) : Bool :=
  c.mark.column == 0 && c.rest.take 3 == [x, x, x] && isGap (c.char? 3)

/-- Whether a document starts or ends here. -/
def isAtDocument (c : Cursor) : Bool := c.isAtIndicator '-' || c.isAtIndicator '.'

/-- The fault of a problem that is noticed here. -/
def fault (c : Cursor) (problem : Problem) (activity : Activity) (began : Mark) : Fault :=
  .malformed problem c.mark (some (activity, began))

end Cursor

end TwinTrees.Yaml
