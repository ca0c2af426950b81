import TwinTrees.Yaml.Token

/-!
# Reading directives, anchors and tags

The address in a tag is a text of few characters; any other octet is written as a percent sign and
two digits. Addresses are kept as lists of octets.
-/

namespace TwinTrees.Yaml

/-- Reads a number of at most nine digits. -/
def readVersionNumber (began : Mark) (c : Cursor) : Except Fault (Nat × Cursor) :=
  let (digits, after) := c.span fun x => x.any Char.isDigit
  if 9 < digits.length then .error ((c.skipMany 9).fault .longVersion .versionDirective began)
  else if digits.isEmpty then .error (c.fault .missingVersion .versionDirective began)
  else .ok (digits.foldl (fun n x => n * 10 + (x.toNat - '0'.toNat)) 0, after)

/-- Reads the two numbers of a version. -/
def readVersion (began : Mark) (c : Cursor) : Except Fault (TokenKind × Cursor) := do
  let (major, c) ← readVersionNumber began (c.skipWhile isSpaceOrTab)
  if !c.isAt '.' then throw (c.fault .missingDot .versionDirective began)
  let (minor, c) ← readVersionNumber began c.skip
  return (.version major minor, c)

/-- Reads the handle of a tag, with an exclamation mark at its start and perhaps at its end. -/
def readHandle (directive : Bool) (began : Mark) (c : Cursor) : Except Fault (List Char × Cursor) :=
  if !c.isAt '!' then
    .error (c.fault .missingExclamation (if directive then .tagDirectiveHandle else .tag) began)
  else
    let (name, after) := c.skip.span isNameChar
    if after.isAt '!' then .ok ('!' :: name ++ ['!'], after.skip)
    else if directive && !name.isEmpty then
      .error (after.fault .missingExclamation .tagDirectiveMark began)
    else .ok ('!' :: name, after)

/-- A character of an address; in some places commas and brackets count too. -/
def isAddressChar (brackets : Bool) : Option Char → Bool
  | some c => isNameChar (some c) ||
    [';', '/', '?', ':', '@', '&', '=', '+', '$', '.', '%', '!', '~', '*', '\'', '(', ')'].contains
      c || brackets && [',', '[', ']'].contains c
  | none => false

/-- The number of octets of a character whose UTF-8 form starts with this octet. -/
def octetCount? (octet : Nat) : Option Nat :=
  if octet < 0x80 then some 1
  else if octet / 0x20 = 6 then some 2
  else if octet / 0x10 = 14 then some 3
  else if octet / 0x08 = 30 then some 4
  else none

/-- Reads octets, each a percent sign and two digits, that make up one character. While their number
is not known, it is none. -/
def readOctets (activity : Activity) (began : Mark) : Nat → Option Nat → Cursor →
    Except Fault (List Char × Cursor)
  | 0, _, c => .ok ([], c)
  | fuel + 1, left, c =>
    match left with
    | some 0 => .ok ([], c)
    | _ =>
      match c.isAt '%', (c.char? 1).bind hexValue?, (c.char? 2).bind hexValue? with
      | true, some high, some low =>
        let octet := high * 16 + low
        match left, octetCount? octet with
        | none, none => .error (c.fault .wrongFirstOctet activity began)
        | none, some count => do
          let (rest, after) ← readOctets activity began fuel (some (count - 1)) (c.skipMany 3)
          return (Char.ofNat octet :: rest, after)
        | some left, _ =>
          if octet / 0x40 ≠ 2 then .error (c.fault .wrongOctet activity began)
          else do
            let (rest, after) ← readOctets activity began fuel (some (left - 1)) (c.skipMany 3)
            return (Char.ofNat octet :: rest, after)
      | _, _, _ => .error (c.fault .missingOctet activity began)

/-- Reads the characters of an address. -/
def readAddressChars (brackets : Bool) (activity : Activity) (began : Mark) : Nat → Cursor →
    Except Fault (List Char × Cursor)
  | 0, c => .ok ([], c)
  | fuel + 1, c =>
    if !isAddressChar brackets c.head? then .ok ([], c)
    else do
      let (here, after) ←
        if c.isAt '%' then readOctets activity began 4 none c else .ok (c.rest.take 1, c.skip)
      let (rest, after) ← readAddressChars brackets activity began fuel after
      return (here ++ rest, after)

/-- Reads an address, which goes on after `head`. The mark at the start of `head` does not
belong to it. -/
def readAddress (brackets directive : Bool) (head : List Char) (began : Mark) (c : Cursor) :
    Except Fault (List Char × Cursor) := do
  let activity := if directive then .tagDirectiveAddress else .tagAddress
  let (found, after) ← readAddressChars brackets activity began (c.rest.length + 1) c
  if head.isEmpty && found.isEmpty then throw (after.fault .missingAddress activity began)
  return (head.drop 1 ++ found, after)

/-- Reads the handle and the address of a tag directive. -/
def readTagDirective (began : Mark) (c : Cursor) : Except Fault (TokenKind × Cursor) := do
  let (handle, c) ← readHandle true began (c.skipWhile isSpaceOrTab)
  if !isSpaceOrTab c.head? then throw (c.fault .missingSpace .tagDirective began)
  let (address, c) ← readAddress true true [] began (c.skipWhile isSpaceOrTab)
  if !isGap c.head? then throw (c.fault .missingSpaceOrLineEnd .tagDirective began)
  return (.tagDirective handle address, c)

/-- Reads a directive and the rest of its line. -/
def readDirective (c : Cursor) : Except Fault (Token × Cursor) := do
  let began := c.mark
  let (name, c) := c.skip.span isNameChar
  if name.isEmpty then throw (c.fault .missingDirectiveName .directive began)
  if !isGap c.head? then throw (c.fault .directiveNameEnd .directive began)
  let (kind, c) ←
    if name = ['Y', 'A', 'M', 'L'] then readVersion began c
    else if name = ['T', 'A', 'G'] then readTagDirective began c
    else .error (c.fault .unknownDirective .directive began)
  let token : Token := ⟨kind, began, c.mark⟩
  let c := (c.skipWhile isSpaceOrTab).skipComment
  if !isLineEnd c.head? then throw (c.fault .missingLineEnd .directive began)
  return (token, c.skipBreak)

/-- Reads an anchor or an alias. -/
def readAnchor (isAlias : Bool) (c : Cursor) : Except Fault (Token × Cursor) := do
  let began := c.mark
  let (name, c) := c.skip.span isNameChar
  let mayFollow := isGap c.head? ||
    c.head?.any fun x => ['?', ':', ',', ']', '}', '%', '@', '`'].contains x
  if name.isEmpty || !mayFollow then
    throw (c.fault .missingAlphanumeric (if isAlias then .aliasTo else .anchor) began)
  return (⟨if isAlias then .aliasTo name else .anchor name, began, c.mark⟩, c)

/-- Reads the handle and the suffix of a tag. -/
def readTagParts (began : Mark) (c : Cursor) :
    Except Fault ((List Char × List Char) × Cursor) := do
  if c.char? 1 == some '<' then
    let (suffix, c) ← readAddress true false [] began (c.skipMany 2)
    if !c.isAt '>' then throw (c.fault .missingAngle .tag began)
    return (([], suffix), c.skip)
  let (handle, c) ← readHandle false began c
  if 1 < handle.length && handle.getLast? == some '!' then
    let (suffix, c) ← readAddress false false [] began c
    return ((handle, suffix), c)
  let (suffix, c) ← readAddress false false handle began c
  return (if suffix.isEmpty then ([], ['!']) else (['!'], suffix), c)

/-- Reads a tag. -/
def readTag (inFlow : Bool) (c : Cursor) : Except Fault (Token × Cursor) := do
  let began := c.mark
  let ((handle, suffix), c) ← readTagParts began c
  if !(inFlow && c.isAt ',') && !isGap c.head? then
    throw (c.fault .missingSpaceOrLineEnd .tag began)
  return (⟨.tag handle suffix, began, c.mark⟩, c)

end TwinTrees.Yaml
