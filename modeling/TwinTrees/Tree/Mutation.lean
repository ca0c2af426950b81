import TwinTrees.World

/-!
# Changing files at random

A mutation overwrites a share of a file's bytes, which lies between two percentages of its size, and
in thirty of a hundred cases also makes the file longer. Places in the file are drawn independently,
so that two of the new bytes may land on one place; the later one stays.

The number of new bytes never exceeds the size of the file, so there is a place to draw for each of
them.
-/

namespace TwinTrees.Tree

/-- A percentage of a size, rounded down. -/
def share (size percent : Nat) : Except ArgumentFault Nat :=
  if size * percent < wordLimit then .ok (size * percent / 100) else .error (.fileTooLarge size)

theorem share_le {size percent n : Nat} (h : share size percent = .ok n) (hp : percent ≤ 100) :
    n ≤ size := by
  unfold share at h
  split at h
  · cases h
    calc size * percent / 100 ≤ size * 100 / 100 :=
          Nat.div_le_div_right (Nat.mul_le_mul_left _ hp)
      _ = size := Nat.mul_div_cancel _ (by decide)
  · cases h

/-- A number of bytes, at most the size of the file. -/
abbrev ByteCount (size : Nat) := { n : Nat // n ≤ size }

/-- The number of bytes to overwrite: at least the share of `min` and below the share of `max`, or
the share of `min` if there is no such number. -/
def mutationCount (size min max : Nat) (s : Source) :
    Except ArgumentFault (ByteCount size × Source) :=
  if hp : min ≤ maxPercent ∧ max ≤ maxPercent then
    match hlow : share size min with
    | .error fault => .error fault
    | .ok low =>
      match hhigh : share size max with
      | .error fault => .error fault
      | .ok high =>
        if h : low < high then
          let (n, s) := s.between low high h
          .ok (⟨n, Nat.le_trans (Nat.le_of_lt n.2.2) (share_le hhigh hp.2)⟩, s)
        else .ok (⟨low, share_le hlow hp.1⟩, s)
  else .error (.percentTooLarge min max)

/-- Writes each byte of a buffer to a place of its own choice, in order. -/
def scatter {n : Nat} (contents : Vector UInt8 n) :
    (buffer : List UInt8) → buffer.length ≤ n → Source → Vector UInt8 n × Source
  | [], _, s => (contents, s)
  | byte :: rest, h, s =>
    let (i, s) := s.below n (by simp at h; omega)
    scatter (contents.set i byte) rest (by simp at h; omega) s

/-- What a mutation did. -/
structure Mutation where
  /-- The size before it. -/
  size : Nat
  writes : Nat
  appended : Bool
  deriving DecidableEq, Repr

/-- The bytes after a mutation, from the bytes before it. -/
def mutateBytes (bytes : Bytes) (writes : ByteCount bytes.size) (s : Source) :
    (Bytes × Bool) × Source :=
  let buffer := (s.bytes writes).1
  let s := (s.bytes writes).2
  let (contents, s) := scatter bytes.toVector buffer (by
    simpa [buffer, Source.length_bytes] using writes.2) s
  let (appended, s) := s.thirtyOfHundred
  ((if appended then contents.toArray ++ buffer.toArray else contents.toArray, appended), s)

/-- Changes a file at random and sets its times to now. -/
def mutate (p : Path) (min max : Nat) : Action CommandError Mutation := do
  let f ← (Action.ask fun d => d.openExisting p).named "open" p
  let bytes ← Action.ask fun d => .ok (d.load f)
  let writes ← Action.tryDraw fun s =>
    (mutationCount bytes.size min max s).mapError CommandError.invalidArgument
  let (changed, appended) ← Action.draw (mutateBytes bytes writes)
  Action.change fun t d => .ok (d.store t f changed)
  Action.change fun t d => .ok (d.setTimesAt f.location t)
  return ⟨bytes.size, writes, appended⟩

end TwinTrees.Tree
