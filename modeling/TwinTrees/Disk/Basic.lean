import TwinTrees.Path

/-!
# The tree of files

A disk maps locations to entries. A location is the list of names that leads from the root to the
entry, so it never passes through a symbolic link, and the entries below a directory are those whose
locations continue the directory's. Each entry has permission bits and two times; it is a
directory, a file with its bytes, or a symbolic link with the path it points to. A file also has an
identity, so that one who holds it open can tell it from a later file at the same location.

The operations here change single locations. `get?_put`, `get?_erase` and `get?_update` say what
they do to each location.
-/

namespace TwinTrees

/-- A point in time, in seconds since 1970 and nanoseconds after. -/
structure Time where
  seconds : Int
  nanos : Nat
  deriving DecidableEq, Repr

/-- The name of an entry in its directory. -/
abbrev Name := List Char

/-- The names that lead from the root to an entry. -/
abbrev Location := List Name

/-- The order of locations: each directory before its contents, siblings by their names. -/
def Location.le (l m : Location) : Bool := Text.dictionaryLe Text.le l m

/-- Permission bits, with the three special bits above them. -/
abbrev Mode := Nat

abbrev Bytes := Array UInt8

/-- What an entry is. -/
inductive Node
  | directory
  | file (id : Nat) (bytes : Bytes)
  | symlink (target : Path)
  deriving DecidableEq, Repr

/-- The kinds of entries. -/
inductive Kind
  | directory
  | file
  | symlink
  deriving DecidableEq, Repr

def Node.kind : Node → Kind
  | directory => .directory
  | file .. => .file
  | symlink _ => .symlink

/-- An entry of the tree. -/
structure Entry where
  node : Node
  mode : Mode
  accessed : Time
  modified : Time
  deriving DecidableEq, Repr

/-- The number of bytes of a file, and of the path of a link. -/
def Entry.size (e : Entry) : Nat :=
  match e.node with
  | .file _ bytes => bytes.size
  | .symlink target => Text.byteLength target.text.toList
  | .directory => 0

/-- A file that is held open. It may have been removed since, or another one put in its place. -/
structure OpenFile where
  location : Location
  id : Nat
  deriving DecidableEq, Repr

/-- A tree of files. -/
structure Disk where
  entries : List (Location × Entry)
  /-- The identity of the next file. -/
  nextId : Nat
  /-- Where relative paths start. -/
  workingDirectory : Location
  deriving DecidableEq, Repr

/-- The name of `location` in the directory `dir`, if it is directly in it. -/
def nameIn? : Location → Location → Option Name
  | [], [name] => some name
  | a :: dir, b :: location => if a = b then nameIn? dir location else none
  | _, _ => none

theorem nameIn?_eq_some_iff {dir location : Location} {name : Name} :
    nameIn? dir location = some name ↔ location = dir ++ [name] := by
  induction dir generalizing location with
  | nil =>
    match location with
    | [] => simp [nameIn?]
    | [a] => simp [nameIn?]
    | a :: b :: rest => simp [nameIn?]
  | cons a dir ih =>
    match location with
    | [] => simp [nameIn?]
    | b :: rest =>
      by_cases h : a = b
      · subst h; simp [nameIn?, ih]
      · simp [nameIn?, h, Ne.symm h]

namespace Disk

/-- The disk that holds the root directory only. -/
def empty (now : Time) : Disk where
  entries := [([], ⟨.directory, 0o755, now, now⟩)]
  nextId := 0
  workingDirectory := []

/-- The entry at a location. -/
def get? (d : Disk) (l : Location) : Option Entry :=
  (d.entries.find? fun x => x.1 == l).map Prod.snd

/-- The disk without the entry at a location. -/
def erase (d : Disk) (l : Location) : Disk :=
  { d with entries := d.entries.filter fun x => x.1 != l }

/-- The disk with `e` at a location. -/
def put (d : Disk) (l : Location) (e : Entry) : Disk :=
  { d with entries := (l, e) :: (d.erase l).entries }

/-- The disk with the entry at a location changed, if there is one. -/
def update (d : Disk) (l : Location) (f : Entry → Entry) : Disk :=
  { d with entries := d.entries.map fun x => if x.1 = l then (l, f x.2) else x }

/-- The disk with the entry at a location modified at a time. -/
def touch (d : Disk) (l : Location) (now : Time) : Disk :=
  d.update l fun e => { e with modified := now }

/-- The disk without the entries strictly below a location. -/
def eraseBelow (d : Disk) (l : Location) : Disk :=
  { d with entries := d.entries.filter fun x => x.1 == l || !l.isPrefixOf x.1 }

/-- The names in a directory with the kinds of their entries. Their order carries no meaning. -/
def names (d : Disk) (dir : Location) : List (Name × Kind) :=
  d.entries.filterMap fun x => (nameIn? dir x.1).map fun name => (name, x.2.node.kind)

theorem get?_erase (d : Disk) (l m : Location) :
    (d.erase l).get? m = if m = l then none else d.get? m := by
  unfold get? erase
  split
  · next h =>
    subst h
    rw [Option.map_eq_none_iff, List.find?_eq_none]
    intro x hx
    simpa using (List.mem_filter.1 hx).2
  · next h =>
    congr 1
    simp only
    induction d.entries with
    | nil => rfl
    | cons x xs ih =>
      by_cases hx : x.1 = l
      · have hm : ¬ x.1 = m := fun hm => h (hm ▸ hx)
        simp [hx, ih, Ne.symm h]
      · by_cases hm : x.1 = m <;> simp [hx, hm, ih, h]

theorem get?_put (d : Disk) (l m : Location) (e : Entry) :
    (d.put l e).get? m = if m = l then some e else d.get? m := by
  by_cases h : m = l
  · subst h; simp [get?, put]
  · have := get?_erase d l m
    simp only [h, if_false] at this ⊢
    rw [← this]
    simp [get?, put, Ne.symm h]

theorem get?_update (d : Disk) (l m : Location) (f : Entry → Entry) :
    (d.update l f).get? m = if m = l then (d.get? m).map f else d.get? m := by
  unfold get? update
  simp only
  induction d.entries with
  | nil => simp
  | cons x xs ih =>
    by_cases hx : x.1 = l <;> by_cases hm : x.1 = m
    · subst hx; subst hm; simp
    · have hml : ¬ m = l := fun h => hm (h ▸ hx)
      simpa [List.find?_cons, hx, hml, Ne.symm hml] using ih
    · have hml : ¬ m = l := fun h => hx (h ▸ hm)
      simp [hm, hml]
    · by_cases hml : m = l
      · subst hml; simpa [List.find?_cons, hx] using ih
      · simpa [List.find?_cons, hx, hm, hml] using ih

theorem get?_touch (d : Disk) (l m : Location) (now : Time) :
    (d.touch l now).get? m =
      if m = l then (d.get? m).map (fun e => { e with modified := now }) else d.get? m :=
  get?_update ..

end Disk

end TwinTrees
