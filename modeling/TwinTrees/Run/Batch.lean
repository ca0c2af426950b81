import TwinTrees.Run.Pool
import TwinTrees.Run.Progress

/-!
# Runs of many tests

The tests of a run go one after the other, and the first failure ends the run; or they go through a
pool of workers, and the failures of all of them are reported together, in the order of the files.
If no test fails, the root of the run is removed.

Each test draws from sources of its own, so that what it draws does not depend on the other tests.
-/

namespace TwinTrees

/-- The action with other sources to draw from, which it does not share with what comes after. -/
def Action.withDraws {ε α : Type} (draws : Draws) (a : Action ε α) : Action ε α := fun w =>
  let (x, w') := a ⟨w.toShared, draws⟩
  (x, ⟨w'.toShared, w.toDraws⟩)

/-- A test on its way. -/
structure TestJob where
  file : Path
  draws : Draws
  progress : Progress

namespace Run

/-- The root of a new run in the directory `base`. -/
def newRoot (base : Path) (s : Source) : Path × Source :=
  let (bytes, s) := s.bytes 4
  let digits := bytes.flatMap fun b => [Nat.digitChar (b.toNat / 16), Nat.digitChar (b.toNat % 16)]
  (base.join ⟨"testrunner-" ++ String.ofList digits⟩, s)

/-- Tests as work of a pool. -/
def work (r : Run) : Work (Path × Draws) TestJob Shared RunError where
  begin := fun (file, draws) => ⟨file, draws, .waiting⟩
  advance job shared :=
    let (progress, w) := job.progress.step r job.file ⟨shared, job.draws⟩
    (⟨job.file, w.toDraws, progress⟩, w.toShared)
  outcome? job := job.progress.outcome?
  rank job := job.progress.rank
  rank_begin_le _ := Nat.le_refl 1
  rank_advance_lt job _ h := Progress.rank_step_lt r job.file job.progress _ h

/-- Runs tests one after the other up to the first failure. -/
def inOrder (r : Run) (tests : List (Path × Draws)) : Action RunError Unit :=
  tests.forM fun (file, draws) => (r.test file).withDraws draws

/-- The number of workers for so many tests. -/
def poolSize (r : Run) (tests : Nat) : Nat := max 1 (min r.workers tests)

/-- The outcome of a batch of tests with these failures. -/
def batchOutcome : List RunError → Except RunError Unit
  | [] => .ok ()
  | failures => .error (.batch failures)

/-- Runs tests in a pool of workers. -/
def inParallel (r : Run) (tests : List (Path × Draws)) : Action RunError Unit := fun w =>
  let pool := (Pool.start tests (r.poolSize tests.length) w.toShared).drive r.work
  (batchOutcome pool.failuresInOrder, ⟨pool.shared, w.toDraws⟩)

/-- Removes the root of the run. -/
def removeRoot (r : Run) : Action RunError Unit :=
  (Tree.remove r.root).mapError (RunError.runRootCleanup r.root)

/-- Runs tests. If they all pass, nothing is left of the run. -/
def tests (r : Run) (parallel : Bool) (tests : List (Path × Draws)) : Action RunError Unit := do
  if parallel then r.inParallel tests else r.inOrder tests
  r.removeRoot

/-- Runs one test. If it passes, nothing is left of the run. -/
def single (r : Run) (file : Path) (draws : Draws) : Action RunError Unit := do
  (r.test file).withDraws draws
  r.removeRoot

end Run

end TwinTrees
