import TwinTrees.Text.Blank
import TwinTrees.Text.Order

/-!
# Paths

A path is a text, kept as it was written because messages show it so. Its meaning is its list of
components: repeated slashes, slashes at the end and a `.` that is not at the start of a relative
path have no component. Two paths are ordered by their components, so `a/x` comes before `a-b/x`
although the character `-` comes before `/`.
-/

namespace TwinTrees

/-- The text of a path. -/
structure Path where
  text : String
  deriving DecidableEq, Repr

instance : ToString Path := ⟨Path.text⟩

/-- One step of a path, in the order in which paths are sorted. -/
inductive Component
  | root
  | here
  | up
  | name (s : List Char)
  deriving DecidableEq, Repr

namespace Component

/-- The rank of the kind of component. -/
def rank : Component → Nat
  | root => 0
  | here => 1
  | up => 2
  | name _ => 3

/-- Components are ordered by kind, and names by their characters. -/
def le : Component → Component → Bool
  | name a, name b => Text.le a b
  | a, b => a.rank ≤ b.rank

end Component

namespace Path

/-- Paths that start at the root of the file system. -/
def isAbsolute (p : Path) : Bool :=
  p.text.toList.head? == some '/'

/-- The component that stands for the text between two slashes, if any. -/
def componentOf (segment : List Char) : Option Component :=
  if segment = [] ∨ segment = ['.'] then none
  else if segment = ['.', '.'] then some .up
  else some (.name segment)

/-- The texts between the slashes after the root, each with its component. -/
def segments (p : Path) : List (List Char × Option Component) :=
  match p.text.toList with
  | '/' :: body => (Text.splitAll '/' body).map fun s => (s, componentOf s)
  | body =>
    match Text.splitAll '/' body with
    | [] => []
    | first :: rest =>
      (first, if first = ['.'] then some .here else componentOf first) ::
        rest.map fun s => (s, componentOf s)

/-- The components of the path. -/
def components (p : Path) : List Component :=
  (if p.isAbsolute then [.root] else []) ++ p.segments.filterMap Prod.snd

/-- The path that continues `p` by `q`; an absolute `q` stands for itself. -/
def join (p : Path) (q : Path) : Path :=
  if q.isAbsolute then q
  else if p.text.toList.getLast?.all (· == '/') then ⟨p.text ++ q.text⟩
  else ⟨p.text ++ "/" ++ q.text⟩

/-- The text of segments, after the root if there is one. -/
def ofSegments (absolute : Bool) (segments : List (List Char)) : Path :=
  ⟨(if absolute then "/" else "") ++ "/".intercalate (segments.map String.ofList)⟩

/-- The path without its last component; a path without any, and the root, have no parent. -/
def parent? (p : Path) : Option Path :=
  let trimmed := (p.segments.reverse.dropWhile (·.2.isNone))
  match trimmed with
  | [] => none
  | _ :: before =>
    some (ofSegments p.isAbsolute ((before.dropWhile (·.2.isNone)).reverse.map Prod.fst))

/-- The path and so many paths above it. -/
def ancestorsUpTo : Nat → Path → List Path
  | 0, p => [p]
  | n + 1, p =>
    p :: match p.parent? with
      | none => []
      | some above => ancestorsUpTo n above

/-- The path, its parent, the parent's parent and so on. -/
def ancestors (p : Path) : List Path :=
  ancestorsUpTo p.segments.length p

/-- The last component if it is a name. -/
def fileName? (p : Path) : Option (List Char) :=
  match p.components.getLast? with
  | some (.name s) => some s
  | _ => none

/-- What follows the last dot of the file name; a dot at its start does not count. -/
def extension? (p : Path) : Option (List Char) :=
  p.fileName?.bind fun s =>
    match Text.splitFirst? '.' s.reverse with
    | none | some (_, []) => none
    | some (after, _) => some after.reverse

/-- The order of paths: by components. -/
def le (p q : Path) : Bool :=
  Text.dictionaryLe Component.le p.components q.components

/-- The path holds a NUL character, which no file name can. -/
def hasNul (p : Path) : Bool :=
  p.text.toList.contains '\x00'

end Path

end TwinTrees
