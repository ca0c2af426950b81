import TwinTrees.Proofs.Always
import TwinTrees.Proofs.Base.Spelling
import TwinTrees.Proofs.Triple

/-!
# Making directories down from a base

Along a path that goes down from a base and meets no link, directories are made at the names that the
path spells and nowhere else: whatever holds before and is kept when a directory is made at one of
these names holds afterwards, also if the making fails (`Making.makeDirectories`). If it does not
fail, there is a directory at the end (`Making.isDir`).
-/

namespace TwinTrees.Base

open TwinTrees.Action (Always Triple)

variable {ε : Type} {b : Base} {p q : Path} {more : Location} {n : Name} {mode : Mode}
  {I : Disk → Prop}

/-- What is kept while directories are made at the names that a path spells, none of which is a
link. -/
structure Making (b : Base) (mode : Mode) (more : Location) (I : Disk → Prop) : Prop where
  stands : ∀ d, I d → b.Stands d
  noLink : ∀ d, I d → ∀ m, m <+: more → m ≠ [] → ∀ old,
    d.node? (b.location ++ m) ≠ some (.symlink old)
  made : ∀ t d above n, I d → above ++ [n] <+: more → IsName n →
    d.IsDir (b.location ++ above) → d.node? (b.location ++ above ++ [n]) = none →
    I (d.addEntry t (b.location ++ above) n .directory (d.directoryMode (b.location ++ above) mode))

namespace Making

variable (h : b.Making mode more I)
include h

theorem prefix_ {m : Location} (hm : m <+: more) : b.Making mode m I where
  stands := h.stands
  noLink d hd m' hm' := h.noLink d hd m' (hm'.trans hm)
  made t d above n hd hn := h.made t d above n hd (hn.trans hm)

theorem openWay {d : Disk} (hd : I d) : d.OpenWay b.location more :=
  fun m hm hne _ => h.noLink d hd m hm hne

theorem makeDirectory (hp : b.Spells p more) {d d' : Disk} {t : Time} (hd : I d)
    (hmake : d.makeDirectory t p mode = .ok d') : I d' := by
  by_cases hne : more = []
  · exact absurd hmake ((h.stands d hd).not_made_above hp.absolute (by simp [hp.steps, hne]))
  · obtain ⟨dir, n, free, rfl⟩ := Disk.of_makeDirectory hmake
    obtain ⟨above, rfl, rfl, isDir, isName⟩ := hp.of_leadsToFree (h.stands d hd) hne
      (h.openWay hd) (.inr (h.noLink d hd _ List.prefix_rfl hne)) free
    exact h.made t d above n hd List.prefix_rfl isName isDir free.free

theorem makeDirectories (hp : b.Spells p more) :
    Always I (Tree.makeDirectories p mode) fun _ => True := by
  refine Always.of_disk fun w hw => ?_
  refine Tree.makeDirectoriesAlong_keeps (I := fun w => I w.disk) (fun q hq w hw => ?_) w hw
  rw [Action.run_change]
  cases hmake : w.disk.makeDirectory (Action.time w) q mode with
  | error fault => exact hw
  | ok d =>
    obtain ⟨habs, ⟨m, hm, hq⟩ | habove⟩ := hp.of_mem_ancestors hq
    · exact (h.prefix_ hm).makeDirectory hq hw hmake
    · exact absurd hmake ((h.stands _ hw).not_made_above habs habove)

/-- If directories are made without a failure, the last one is there, and the path can be followed. -/
theorem isDir (working : ∀ d, I d → d.IsDir d.workingDirectory) (hp : b.Spells p more)
    (hne : more ≠ []) :
    Triple I (Tree.makeDirectories p mode)
      fun _ d => I d ∧ d.IsDir (b.location ++ more) ∧ p.IsValid := by
  intro w x w' hw hrun
  have hkept := (h.makeDirectories hp w _ w' hw hrun).1
  have stands := h.stands _ hkept
  obtain ⟨hthere, -⟩ := Tree.of_makeDirectories mode
    (.of_working (h.stands _ hw).tree (working _ hw)) (hp.nonempty hne) (congrArg Prod.fst hrun)
  rw [hrun] at hthere
  obtain ⟨-, ⟨valid, -⟩, -⟩ := (Disk.isDirectory_iff stands.tree).1 hthere
  exact ⟨hkept, hp.isDir_of_isDirectory stands hne (h.openWay hkept)
    (h.noLink _ hkept _ List.prefix_rfl hne) hthere, valid⟩

end Making

end TwinTrees.Base
