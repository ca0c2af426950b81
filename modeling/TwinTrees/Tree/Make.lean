import TwinTrees.World

/-!
# Making directories and files

Directories are made together with the directories above them, and a directory that is there
already is fine. A file is never made over an entry that is there. Its bytes are random and its time
is given.
-/

namespace TwinTrees.Tree

/-- The bits of the directories and files that are made. -/
def directoryMode : Mode := 0o700

def fileMode : Mode := 0o600

/-- Makes a directory if it is not there, with the directories above it that the list names, the
nearest first. The empty path stands for the working directory. -/
def makeDirectoriesAlong (mode : Mode) : List Path → Action IoError Unit
  | [] => return
  | p :: above => do
    if p.text.isEmpty then return
    match ← (Action.change fun t d => d.makeDirectory t p mode).attempt with
    | .ok () => return
    | .error fault =>
      if fault = .os Errno.noEntry then
        makeDirectoriesAlong mode above
        match ← (Action.change fun t d => d.makeDirectory t p mode).attempt with
        | .ok () => return
        | .error fault => settle p fault
      else settle p fault
where
  /-- A failure does not count if the directory is there. -/
  settle (p : Path) (fault : IoError) : Action IoError Unit :=
    Action.ask fun d => if d.isDirectory p then .ok () else .error fault

/-- Makes a directory and the directories above it, unless they are there. -/
def makeDirectories (p : Path) (mode : Mode) : Action IoError Unit :=
  makeDirectoriesAlong mode p.ancestors

/-- Makes a directory and the directories above it, for this user alone. -/
def makeDirectory (p : Path) : Action CommandError Unit :=
  (makeDirectories p directoryMode).named "mkdir" p

/-- Makes the directory that `p` is to be in. -/
def makeParent (p : Path) : Action CommandError Unit :=
  match p.parent? with
  | some above => makeDirectory above
  | none => return

/-- Says that the file is there already, or why else it could not be made. -/
def creationFault (p : Path) (fault : IoError) : CommandError :=
  if fault = .os Errno.alreadyExists then .alreadyExists p else .io "create" p fault

/-- The most bytes that are written at a time. -/
def chunkSize : Nat := 64 * 1024

/-- The numbers of bytes that are written one after the other until so many are written: the most that
there can be, as often as so many are left, and then what is left. -/
def chunks (left : Nat) : List Nat :=
  List.replicate (left / chunkSize) chunkSize ++
    if left % chunkSize = 0 then [] else [left % chunkSize]

/-- As long as bytes are left, as many of them are written as can be at a time. -/
theorem chunks_eq (left : Nat) :
    chunks left =
      if left = 0 then [] else min left chunkSize :: chunks (left - min left chunkSize) := by
  have hsize : 0 < chunkSize := by decide
  unfold chunks
  by_cases h : left = 0
  · rw [if_pos h, h, Nat.zero_div, Nat.zero_mod, if_pos rfl, List.replicate_zero, List.append_nil]
  · rw [if_neg h]
    obtain hlt | hle := Nat.lt_or_ge left chunkSize
    · rw [Nat.min_eq_left (Nat.le_of_lt hlt), Nat.sub_self, Nat.div_eq_of_lt hlt,
        Nat.mod_eq_of_lt hlt, if_neg h, Nat.zero_div, Nat.zero_mod, if_pos rfl,
        List.replicate_zero, List.append_nil, List.nil_append]
    · rw [Nat.min_eq_right hle, Nat.div_eq_sub_div hsize hle, Nat.mod_eq_sub_mod hle,
        List.replicate_succ, List.cons_append]

/-- Writes random bytes at the end of an open file. -/
def writeChunk (f : OpenFile) (size : Nat) : Action CommandError Unit := do
  let bytes ← Action.draw fun s => s.bytes size
  Action.change fun t d => .ok (d.append t f bytes.toArray)

/-- Makes a file of random bytes. -/
def makeFile (p : Path) (size : Nat) (time : Time) : Action CommandError Unit := do
  makeParent p
  let f ← (Action.request fun t d => d.createNew t p fileMode).mapError (creationFault p)
  (chunks size).forM (writeChunk f)
  Action.change fun _ d => .ok (d.setTimesAt f.location time)

end TwinTrees.Tree
