import TwinTrees.Registry
import TwinTrees.Verb.Copy
import TwinTrees.Verb.Link
import TwinTrees.Verb.Make
import TwinTrees.Verb.Mutate
import TwinTrees.Verb.Remove
import TwinTrees.Verb.Stamp

/-!
# The verbs of test scripts
-/

namespace TwinTrees.Verb

/-- The verbs that test scripts can use. -/
def standard : Registry Verb where
  handlers := [
    ⟨"mkfile", make⟩, ⟨"rm", remove⟩, ⟨"symlink", link⟩, ⟨"sync", stamp "sync"⟩,
    ⟨"touch", stamp "touch"⟩, ⟨"mutate", mutate⟩, ⟨"clone", copy⟩]
  distinct := by simp

end TwinTrees.Verb
