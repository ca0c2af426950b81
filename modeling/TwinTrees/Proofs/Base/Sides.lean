import TwinTrees.Proofs.Base.Spelling
import TwinTrees.Proofs.Site.Basic

/-!
# The sides of a test as names below its directory

With the directory of a test as the base, the path of a side spells the name of the side, and the
path of a name on a side goes on from there. So whether such a path spells the names that a relative
name has after the name of the side does not depend on what is on the disk.
-/

namespace TwinTrees

namespace Base

variable {b : Base} {side : Side} {m above : Location}

/-- The location of names on a side. -/
def onSide (b : Base) (side : Side) (m : Location) : Location :=
  b.location ++ side.name.toList :: m

theorem onSide_append (b : Base) (side : Side) (m more : Location) :
    b.onSide side (m ++ more) = b.onSide side m ++ more := by
  simp [onSide]

theorem onSide_prefix (b : Base) (side : Side) (h : above <+: m) :
    b.onSide side above <+: b.onSide side m :=
  (List.prefix_append_right_inj _).2 ((List.prefix_cons_inj _).2 h)

theorem onSide_inj : b.onSide side above = b.onSide side m ↔ above = m := by
  simp [onSide]

/-- What is on the way to names of one side is not on the other side. -/
theorem onSide_ne (other : Side) {l : Location} (hne : side ≠ other)
    (hl : l <+: other.name.toList :: m) : b.onSide side above ≠ b.location ++ l := by
  intro heq
  rw [← List.append_cancel_left heq, List.cons_prefix_cons] at hl
  exact hne (by cases side <;> cases other <;> first | rfl | exact absurd hl.1 (by decide))

/-- The sides of the environment are those of a test whose directory is the base. -/
structure Fits (b : Base) (env : Environment) : Prop where
  side : ∀ side, env.side side = b.path.join ⟨side.name⟩

namespace Fits

variable {env : Environment}

/-- The path of a side goes down from the directory of the test. -/
theorem spells (h : b.Fits env) (side : Side) : b.Spells (env.side side) [side.name.toList] :=
  h.side side ▸ Spells.entry b side.isName

theorem endsInName (h : b.Fits env) (side : Side) : (env.side side).EndsInName := by
  have hend := Path.endsInName_inside (p := b.path) side.isName
  rwa [Tree.inside, String.ofList_toList, ← h.side] at hend

/-- A relative name without `..` goes on down the side. -/
theorem resolve (h : b.Fits env) (side : Side) {name : String}
    (relative : (Path.mk name).isAbsolute = false) (down : Descends (Path.mk name).steps) :
    b.Spells (env.resolve side name) (side.name.toList :: stepNames (Path.mk name).steps) :=
  (h.spells side).join relative down

end Fits

end Base

end TwinTrees
