import TwinTrees.Yaml.Event

/-!
# Documents of YAML texts

A document is a list of nodes in the order of the text, where collections have a start and an end.
Anchors are numbered, and an alias refers to its anchor by the number. A document may end in a
fault: the nodes before the fault are still there, and can be looked at first.
-/

namespace TwinTrees.Yaml

/-- A scalar, or the start or the end of a collection. -/
inductive Node
  | scalar (tag : Option (List Char)) (text : List Char) (style : ScalarStyle)
  | sequenceStart
  | sequenceEnd
  | mappingStart
  | mappingEnd
  | aliasTo (anchor : Nat)
  deriving DecidableEq, Repr

/-- A document, up to its end or to a fault. -/
structure Document where
  nodes : List (Node × Mark)
  /-- For each anchor the number of its node. -/
  anchors : List (Nat × Nat)
  fault : Option Fault
  deriving Repr

/-- The node of an anchor. If the number was given twice, the later node counts. -/
def Document.anchored? (d : Document) (anchor : Nat) : Option (Node × Mark) :=
  (d.anchors.find? fun a => a.1 == anchor).bind fun (_, node) => d.nodes[node]?

/-- What there is from some place of a stream on. -/
inductive Part
  /-- No other document. -/
  | nothing
  /-- A document, and what follows it. -/
  | document (d : Document) (rest : EventStream)

/-- The anchors so far: the name of each with its number, which is the count of names at its time,
and the nodes, the latest first. -/
structure Anchors where
  names : List (List Char × Nat)
  nodes : List (Nat × Nat)

namespace Anchors

def empty : Anchors := ⟨[], []⟩

/-- The anchors with one more, if there is one, at a node. -/
def add (a : Anchors) (node : Nat) : Option (List Char) → Anchors
  | none => a
  | some name =>
    { names := (name, a.names.length) :: a.names.filter fun n => n.1 != name
      nodes := (a.names.length, node) :: a.nodes }

/-- The number of an anchor. -/
def find? (a : Anchors) (name : List Char) : Option Nat :=
  (a.names.find? fun n => n.1 == name).map Prod.snd

end Anchors

/-- Reads the nodes of a document, at most so many events. -/
def readNodes : Nat → EventStream → List (Node × Mark) → Anchors → Part
  | 0, s, nodes, anchors => .document ⟨nodes.reverse, anchors.nodes, none⟩ s
  | fuel + 1, s, nodes, anchors =>
    let ended (fault : Option Fault) (s : EventStream) : Part :=
      .document ⟨nodes.reverse, anchors.nodes, fault⟩ s
    match s.next with
    | .error fault => ended (some fault) s
    | .ok ((event, mark), after) =>
      let node (n : Node) (anchors : Anchors) : Part :=
        readNodes fuel after ((n, mark) :: nodes) anchors
      match event with
      | .streamStart | .documentStart => readNodes fuel after nodes anchors
      | .streamEnd => .nothing
      | .documentEnd => ended none after
      | .aliasTo name =>
        match anchors.find? name with
        | some n => node (.aliasTo n) anchors
        | none => ended (some (.unknownAnchor mark)) after
      | .scalar p text style =>
        node (.scalar p.tag text style) (anchors.add nodes.length p.anchor)
      | .sequenceStart p => node .sequenceStart (anchors.add nodes.length p.anchor)
      | .sequenceEnd => node .sequenceEnd anchors
      | .mappingStart p => node .mappingStart (anchors.add nodes.length p.anchor)
      | .mappingEnd => node .mappingEnd anchors

/-- A limit on the number of events of a text: every character can give rise to a few. -/
def eventLimit (text : List Char) : Nat := 8 * text.length + 16

/-- The characters that a text may hold. -/
def isAllowed (c : Char) : Bool :=
  let n := c.toNat
  n == 9 || n == 10 || n == 13 || (0x20 ≤ n && n ≤ 0x7E) || n == 0x85 ||
    (0xA0 ≤ n && n ≤ 0xFFFD) || 0x10000 ≤ n

/-- The length in bytes of the text before its first character that is not allowed. -/
def beforeForbidden? : List Char → Option Nat
  | [] => none
  | c :: rest => if isAllowed c then (beforeForbidden? rest).map (· + c.utf8Size) else some 0

/-- The text without a byte order mark at its start. -/
def withoutByteOrderMark : List Char → List Char
  | '\ufeff' :: rest => rest
  | text => text

/-- The first document of a text, and whether anything follows it, be it only a fault. -/
def readFirst (text : List Char) : Option (Document × Bool) :=
  match beforeForbidden? text with
  | some offset => some (⟨[], [], some (.character offset)⟩, false)
  | none =>
    let text := withoutByteOrderMark text
    match readNodes (eventLimit text) (.ofText text) [] .empty with
    | .nothing => none
    | .document d rest =>
      match readNodes (eventLimit text) rest [] .empty with
      | .nothing => some (d, false)
      | .document .. => some (d, true)

end TwinTrees.Yaml
