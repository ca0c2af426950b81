import TwinTrees.Proofs.Base.Cloning
import TwinTrees.Proofs.Run.Staging

/-!
# What `clone` does to the left side

The left side is what `clone` copies, and it is as it was afterwards (`Run.clone_leaves_left`),
unless the path of a copy leads back to it. There are three ways for that: a link on the right side
where the left side has a directory or a file, a name with `..`, and a name that passes through a
link of the left side, of which the right side may get a copy (`Run.clone_changes_left`).
-/

namespace TwinTrees.Run

theorem fits_environment (r : Run) (file : Path) (start : Time) (sink : LogSink) (home : Location)
    (k : Nat) : (Base.mk (r.environment file start sink).root home k).Fits
      (r.environment file start sink) where
  side side := by cases side <;> simp only [Environment.side, environment, Environment.inside]

end TwinTrees.Run
