import TwinTrees.Proofs.Run.Root

/-!
# Removing the root of a run and making it again

A run that removes its root may go on: the next test makes the root again. That works if the way to
the place of the root does not lead through the root itself, and if the run is not working in it
(`Approach`). Then the root is removed with all that is in it, whatever that is, and afterwards it is
`Rooted` on what is left of the disk.
-/

namespace TwinTrees.Run

variable {r : Run} {start made d d' : Disk} {g : Ground} {w : World} {dir : Location} {n : Name}

/-- The way to the directory `dir` that the root has its place in, under the name `n`. -/
structure Approach (r : Run) (dir : Location) (n : Name) (d : Disk) : Prop where
  tree : d.IsTree
  working : d.IsDir d.workingDirectory
  outside : ¬ dir ++ [n] <+: d.workingDirectory
  way : ∃ before k, r.root.steps = before ++ [.name n] ∧ k ≤ linkLimit ∧
    (d.part fun l => ¬ dir ++ [n] <+: l).Route k (r.root.startFrom d.workingDirectory) before dir

namespace Approach

theorem of_alike (h : r.Approach dir n d) (tree : d'.IsTree)
    (alike : Disk.Alike false (fun l => ¬ dir ++ [n] <+: l) d d') : r.Approach dir n d' where
  tree := tree
  working := by
    rw [← alike.workingDirectory]
    exact alike.isDir h.outside h.working
  outside := by
    rw [← alike.workingDirectory]
    exact h.outside
  way := by
    obtain ⟨before, k, hsteps, hk, route⟩ := h.way
    rw [← alike.workingDirectory]
    exact ⟨before, k, hsteps, hk, route.of_alike alike fun _ => id⟩

theorem isDir (h : r.Approach dir n d) : d.IsDir dir := by
  obtain ⟨before, k, -, -, route⟩ := h.way
  exact route.of_part.isDir_end h.tree (h.tree.isDir_startFrom h.working r.root)

variable (valid : r.root.IsValid)
include valid

theorem names (h : r.Approach dir n d) (there : d.IsDir (dir ++ [n])) :
    d.Names r.root (dir ++ [n]) := by
  obtain ⟨before, k, hsteps, hk, route⟩ := h.way
  rw [Disk.Names, hsteps]
  exact ⟨valid, k + 0, hk, route.of_part.append (.single there)⟩

variable (slash : r.root.endsInSlash = false)
include slash

theorem target (h : r.Approach dir n d) : d.target .keep r.root = .ok (.name dir n false) := by
  obtain ⟨before, k, hsteps, hk, route⟩ := h.way
  obtain ⟨j, hj⟩ := Nat.exists_eq_add_of_le hk
  rw [Disk.target_of_isValid valid, hsteps, hj,
    route.of_part.proceed h.tree (f := .here) (List.cons_ne_nil _ _), Disk.proceed_name,
    if_pos ⟨rfl, rfl⟩, slash]
  rfl

/-- The root is removed with all that is in it. -/
theorem remove (h : r.Approach dir n w.disk) (there : w.disk.IsDir (dir ++ [n])) :
    ∃ w', (Tree.remove r.root).run w = (.ok (), w') ∧ r.Approach dir n w'.disk ∧
      w'.disk.node? (dir ++ [n]) = none := by
  have hshort := (h.tree.named (n := n) (Disk.node?_ne_none_of_eq there)).short
  obtain ⟨e, he, -⟩ := Disk.isDir_iff.1 there
  have hlook := Disk.lookAt_of_target (h.target valid slash) slash hshort he
  obtain ⟨d, hd⟩ : ∃ d, d = w.disk.clear (Action.time w) (dir ++ [n]) := ⟨_, rfl⟩
  have hclear : Disk.SameOff (fun l => dir ++ [n] <+: l) w.disk d := hd ▸ .clear fun _ hm => hm
  have hway := h.of_alike (hd ▸ h.tree.clear _) (hclear.alike fun _ => id)
  have hempty : d.names (dir ++ [n]) = [] := hd ▸ (Disk.isDir_clear (Action.time w) there).2
  have herase : Disk.SameOff (fun l => dir ++ [n] <+: l) d (d.erase (dir ++ [n])) :=
    .erase List.prefix_rfl
  have hremove := Tree.remove_directory there hshort hlook (hd ▸ hway.target valid slash)
  rw [← hd] at hremove
  exact ⟨_, hremove, hway.of_alike (hway.tree.removeEntry (Disk.names_eq_nil_iff.1 hempty))
    ((herase.alike fun _ => id).trans (.touched _ _ _)), Disk.node?_removeEntry.trans (if_pos rfl)⟩

/-- The root is made where nothing is. -/
theorem make (h : r.Approach dir n w.disk) (isName : IsName n)
    (free : w.disk.node? (dir ++ [n]) = none) :
    ∃ w', (Tree.makeDirectories r.root Tree.directoryMode).run w = (.ok (), w') ∧
      r.Approach dir n w'.disk ∧ w'.disk.IsDir (dir ++ [n]) ∧ w'.disk.names (dir ++ [n]) = [] := by
  have hchild : w.disk.child? dir n = .ok none := by
    rw [Disk.child?_of_short isName.short, Disk.node?_eq_none_iff.1 free]
  obtain ⟨mode, hmode⟩ : ∃ mode, mode = w.disk.directoryMode dir Tree.directoryMode := ⟨_, rfl⟩
  have hmake : w.disk.makeDirectory (Action.time w) r.root Tree.directoryMode =
      .ok (w.disk.addEntry (Action.time w) dir n .directory mode) := by
    unfold Disk.makeDirectory
    simp only [h.target valid slash, bind, Except.bind, hchild, Except.mapError, hmode]
    rfl
  have hput : Disk.SameOff (fun l => dir ++ [n] <+: l) w.disk
      (w.disk.put (dir ++ [n]) ⟨.directory, mode, Action.time w, Action.time w⟩) :=
    .put List.prefix_rfl _
  have hway : r.Approach dir n (w.disk.addEntry (Action.time w) dir n .directory mode) :=
    h.of_alike (h.tree.addEntry h.isDir free isName)
      ((hput.alike fun _ => id).trans (.touched _ _ _))
  refine ⟨_, Tree.makeDirectories_of_made valid.nonempty hmake, hway,
    Disk.node?_addEntry.trans (if_pos rfl), Disk.names_eq_nil_iff.2 fun m => ?_⟩
  show (w.disk.addEntry (Action.time w) dir n .directory mode).node? _ = none
  rw [Disk.node?_addEntry, if_neg (by simp)]
  exact h.tree.node?_eq_none_of_prefix (List.prefix_append _ _) (by simp)
    (Disk.not_isDir_of_free free)

end Approach

/-- A stretch of a run between two removals of its root. -/
structure Era (r : Run) (g : Ground) (start made : Disk) : Prop where
  rooted : r.Rooted start made
  bears : r.Bears made g
  approach : ∃ dir n, g.home = dir ++ [n] ∧ r.Approach dir n made

/-- Where the way to the root does not lead through it, the root can be removed at any time, and the
run can go on. -/
theorem Era.renew (era : r.Era g start made) (course : Course g start made w.disk) :
    ∃ w', r.removeRoot.run w = (.ok (), w') ∧
      ∃ g start' made', r.Era g start' made' ∧ Course g start' made' w'.disk := by
  obtain ⟨dir, n, hhome, approach⟩ := era.approach
  have hremoved : ∃ w', (Tree.remove r.root).run w = (.ok (), w') ∧
      ∃ g start' made', r.Era g start' made' ∧ Course g start' made' w'.disk := by
    by_cases ready : g.Ready w.disk
    · have valid : r.root.IsValid := era.bears.names.1
      have slash := era.rooted.endsInSlash
      have alike := (course.alike era.rooted era.bears ready).mono
        (Q := fun l => ¬ dir ++ [n] <+: l) fun l hl hin => hl (hhome ▸ hin.1)
      have there := ready.isDir
      rw [hhome] at there
      have isName : IsName n := ready.tree.named (Disk.node?_ne_none_of_eq there)
      obtain ⟨w', hremove, hway, hfree⟩ :=
        (approach.of_alike ready.tree alike).remove valid slash there
      obtain ⟨w'', hmake, hway', hthere, hempty⟩ := hway.make valid slash isName hfree
      have rooted : r.Rooted w'.disk w''.disk := { era.rooted with
        tree := hway.tree
        working := hway.working
        makes := ⟨w', w'', rfl, rfl, hmake⟩
        empty := (hway'.names valid hthere).list hway'.tree hthere |>.trans (congrArg _ hempty) }
      obtain ⟨g', bears, hhome'⟩ := rooted.ground_of_names (hway'.names valid hthere)
      exact ⟨w', hremove, g', _, _, ⟨rooted, bears, dir, n, hhome', hway'⟩, .fresh⟩
    · have hstart := course.eq_start ready
      obtain ⟨w₀, w₀', hstart₀, -, hmake⟩ := era.rooted.makes
      obtain there | free := Tree.there_or_free_of_makeDirectories (w := w₀) era.rooted.text_isEmpty
        era.rooted.endsInSlash (congrArg Prod.fst hmake)
      · rw [hstart₀] at there
        rw [hstart, ← era.rooted.made_eq_of_isDirectory there] at ready
        exact absurd era.bears.ready ready
      · rw [hstart₀, ← hstart] at free
        exact ⟨w, Tree.remove_of_free free, g, start, made, era, course⟩
  obtain ⟨w', hremove, hera⟩ := hremoved
  refine ⟨w', ?_, hera⟩
  unfold removeRoot
  rw [Action.run_mapError, hremove]
  rfl

end TwinTrees.Run
