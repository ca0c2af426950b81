import TwinTrees.Error
import TwinTrees.Tree.Walk

/-!
# Finding test files

A path that names a directory stands for the test files in it, at any depth, in the order of their
paths. Any other path stands for itself, whatever its name is and whether there is a file or not.
-/

namespace TwinTrees

/-- The extension of test files. -/
def testExtension : String := "t"

/-- Whether a path has the extension of test files. -/
def Path.isTestFile (p : Path) : Bool :=
  p.extension? == some testExtension.toList

namespace Disk

/-- The test files in a directory, in the order of their paths. -/
def testFiles (d : Disk) (root : Path) : Except RunError (List Path) := do
  let visits ← (d.walkDown root).mapM fun visit => visit.mapError (RunError.discover root)
  let files := (visits.filter fun (p, kind) => kind = .file && p.isTestFile).map Prod.fst
  return files.mergeSort Path.le

/-- The files that paths stand for, in the order of the paths. -/
def discover (d : Disk) (paths : List Path) : Except RunError (List Path) := do
  let files ← paths.mapM fun p => if d.isDirectory p then d.testFiles p else .ok [p]
  return files.flatten

end Disk

end TwinTrees
