import TwinTrees.CommandLine

/-!
# The program

The tests act on a disk in memory. What the arguments name is read into it before the run, and what
the run has added and not removed is written out after it, so that the trees of a failed test can
be looked at. Entries that were there before the run are left alone, and symbolic links are not
written out.
-/

namespace TwinTrees.Program

/-- How deep below a named directory test files are looked for. -/
def depthLimit : Nat := 200

/-- Does something on the disk in memory. What fails there is found to be missing by the run. -/
def inMemory (a : Action IoError Unit) : StateT World IO Unit :=
  fun w => return ((), (a.run w).2)

/-- Puts a file with these bytes on the disk in memory. -/
def addFile (p : Path) (bytes : Bytes) : Action IoError Unit := do
  match p.parent? with
  | some above => Tree.makeDirectories above 0o755
  | none => return
  let f ← Action.request fun t d => d.openOrCreate t p 0o644 true
  Action.change fun t d => .ok (d.append t f bytes)

/-- Reads a file into memory. One that cannot be read is passed over. -/
def loadFile (p : Path) : StateT World IO Unit := do
  try
    let bytes ← IO.FS.readBinFile p.text
    inMemory (addFile p bytes.data)
  catch _ => return

/-- Reads the test files below a directory into memory, through no links. -/
def loadDirectory : Nat → Path → StateT World IO Unit
  | 0, _ => return
  | depth + 1, p => do
    inMemory (Tree.makeDirectories p 0o755)
    for child in ← ((← IO.currentDir) / p.text).readDir do
      let inside := p.join ⟨child.fileName⟩
      match (← child.path.symlinkMetadata).type with
      | .dir => loadDirectory depth inside
      | .file => if inside.isTestFile then loadFile inside
      | _ => continue

/-- Reads what is at a path into memory. -/
def load (p : Path) : StateT World IO Unit := do
  if ← ((← IO.currentDir) / p.text).isDir then loadDirectory depthLimit p else loadFile p

/-- Puts the directories on the way to a path on the disk in memory, or the file that is in the
way. -/
def loadWay (p : Path) : StateT World IO Unit :=
  p.ancestors.reverse.forM fun above => do
    let place := (← IO.currentDir) / above.text
    if ← place.isDir then inMemory (Tree.makeDirectories above 0o755)
    else if ← place.pathExists then inMemory (addFile above #[])

/-- The time at which the program was started. -/
def startTime : IO Time := do
  try
    let data ← ((← IO.currentDir) / "/proc/self").metadata
    return ⟨data.modified.sec, data.modified.nsec.toNat⟩
  catch _ => return ⟨0, 0⟩

/-- The number of processors, as far as it is known. -/
def processors : IO Nat := do
  try
    let lines ← IO.FS.lines "/proc/cpuinfo"
    return max 1 (lines.filter fun line => line.startsWith "processor").size
  catch _ => return 1

/-- A clock that starts at a time and goes on by a microsecond with each reading. -/
def clockFrom (t : Time) : Clock where
  reading n :=
    let nanos := t.nanos + 1000 * n
    ⟨t.seconds + (nanos / 1000000000 : Nat), nanos % 1000000000⟩
  position := 0

/-- The machine that the program runs on, and the world before the run. -/
def start : IO (Machine × World) := do
  let time ← startTime
  let seed := (← IO.getRandomBytes 8).data.foldl (fun n b => n * 256 + b.toUInt64) (0 : UInt64)
  let here : Path := ⟨(← IO.currentDir).toString⟩
  let draws (n : Nat) : Draws := ⟨.seeded (seed + n.toUInt64), clockFrom time⟩
  let machine : Machine := {
    tempDir := ⟨(← IO.getEnv "TMPDIR").getD "/tmp"⟩
    processors := ← processors
    draws := fun n => draws (n + 1) }
  let world : World := { disk := Disk.empty time, journal := [], toDraws := draws 0 }
  let (_, world) := (Tree.makeDirectories here 0o755).run world
  match world.disk.find true here with
  | .ok (l, _) => return (machine, { world with disk.workingDirectory := l })
  | .error _ => return (machine, world)

/-- Reads what the arguments name into memory. -/
def loadNamed (machine : Machine) (arguments : List String) : StateT World IO Unit := do
  match Arguments.read arguments with
  | .error _ => return
  | .ok a =>
    a.config.forM load
    a.paths.forM load
    match a.settings (← get).disk with
    | .ok settings => loadWay (settings.tempBase machine.tempDir)
    | .error _ => return

/-- Writes out what is on the disk now and was not there before. -/
def writeOut (before after : Disk) : IO Unit := do
  let added := after.entries.filter fun x => (before.get? x.1).isNone
  for (l, e) in added.mergeSort fun a b => Location.le a.1 b.1 do
    let place := "/" ++ "/".intercalate (l.map String.ofList)
    match e.node with
    | .directory => IO.FS.createDirAll place
    | .file _ bytes => IO.FS.writeBinFile place ⟨bytes⟩
    | .symlink _ => continue

end TwinTrees.Program

/-- Runs the tests that the arguments name. -/
def main (arguments : List String) : IO UInt32 := do
  let (machine, world) ← TwinTrees.Program.start
  let ((), before) ← (TwinTrees.Program.loadNamed machine arguments).run world
  let (report, after) := (TwinTrees.perform arguments machine).run before
  IO.print report.output
  IO.eprint report.errors
  TwinTrees.Program.writeOut before.disk after.disk
  return report.exitCode.toUInt32
