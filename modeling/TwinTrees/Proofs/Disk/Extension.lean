import TwinTrees.Proofs.Disk.Success

/-!
# Larger disks

On a larger disk whatever is there is there as well. A disk `Persists` on another one if everything
on it is still there and of the same kind, directories and links unchanged; then a walk that comes
out at something comes out at the same place on the larger disk, so each path goes on to name what it
named (`Persists.find`). Files may have got other bytes. A disk `Extends` another one if even they
have not, so a file that can be read keeps its text (`Extends.readText`).
-/

namespace TwinTrees

namespace Disk

variable {d d' d'' : Disk} {last : LastLink} {links : Nat} {slash : Bool} {cur dir : Location}
  {e : Ending} {n : Name} {steps : List Step} {out : Target} {p : Path}

/-! ## Disks that persist -/

/-- What is on the disk `d` is on the disk `d'` and of the same kind. Directories and links are what
they were. -/
structure Persists (d d' : Disk) : Prop where
  node : ∀ l node, d.node? l = some node →
    ∃ node', d'.node? l = some node' ∧ node'.kind = node.kind ∧ (node.kind ≠ .file → node' = node)
  workingDirectory : d'.workingDirectory = d.workingDirectory

namespace Persists

theorem refl (d : Disk) : Persists d d := ⟨fun _ node h => ⟨node, h, rfl, fun _ => rfl⟩, rfl⟩

theorem trans (h : Persists d d') (h' : Persists d' d'') : Persists d d'' where
  node l node hl := by
    obtain ⟨node', hl', hkind, hsame⟩ := h.node l node hl
    obtain ⟨node'', hl'', hkind', hsame'⟩ := h'.node l node' hl'
    exact ⟨node'', hl'', hkind'.trans hkind,
      fun hne => (hsame' (hkind ▸ hne)).trans (hsame hne)⟩
  workingDirectory := h'.workingDirectory.trans h.workingDirectory

/-- What is free was free before. -/
theorem free (h : Persists d d') {l : Location} (hl : d'.node? l = none) : d.node? l = none := by
  by_contra hne
  obtain ⟨node, hnode⟩ := Option.ne_none_iff_exists'.1 hne
  obtain ⟨node', hnode', -⟩ := h.node l node hnode
  rw [hl] at hnode'
  cases hnode'

/-- A walk that comes out at something that is there comes out there on the larger disk, and one that
comes out where nothing is, if no link is made there. -/
theorem walks (h : Persists d d') (hp : d.Walks last links slash cur e steps out)
    (noLink : ∀ dir n slash, out = .name dir n slash → d.node? (dir ++ [n]) = none →
      ∀ old, d'.node? (dir ++ [n]) ≠ some (.symlink old)) :
    d'.Walks last links slash cur e steps out := by
  induction hp with
  | done => exact .done
  | here _ ih => exact .here (ih noLink)
  | up _ ih => exact .up (ih noLink)
  | stop keeps => exact .stop keeps
  | @name _ _ cur _ n short noLink' =>
    refine .name short ?_
    cases hnode : d.node? (cur ++ [n]) with
    | none => exact noLink _ _ _ rfl hnode
    | some node =>
      obtain ⟨node', hnode', hkind, -⟩ := h.node _ _ hnode
      rintro old hold
      cases hnode'.symm.trans hold
      cases node with
      | symlink link => exact noLink' link hnode
      | directory => cases hkind
      | file => cases hkind
  | directory hrest short isDir _ ih =>
    obtain ⟨node', hnode', -, hsame⟩ := h.node _ _ isDir
    exact .directory hrest short (hnode'.trans (congrArg some (hsame nofun))) (ih noLink)
  | link follows short isLink _ ih =>
    obtain ⟨node', hnode', -, hsame⟩ := h.node _ _ isLink
    exact .link follows short (hnode'.trans (congrArg some (hsame nofun))) (ih noLink)

theorem target (h : Persists d d') (hp : d.target last p = .ok out)
    (noLink : ∀ dir n slash, out = .name dir n slash → d.node? (dir ++ [n]) = none →
      ∀ old, d'.node? (dir ++ [n]) ≠ some (.symlink old)) :
    d'.target last p = .ok out := by
  obtain ⟨hvalid, hproceed⟩ := of_target_eq_ok hp
  rw [target_of_isValid hvalid, h.workingDirectory,
    (h.walks (walks_of_proceed hproceed) noLink).proceed]
  rfl

/-- What a path names on the smaller disk it names on the larger one. -/
theorem find (h : Persists d d') {follow : Bool} {l : Location} {entry : Entry}
    (hfind : d.find follow p = .ok (l, entry)) :
    ∃ entry', d'.find follow p = .ok (l, entry') ∧ d'.get? l = some entry' := by
  obtain ⟨target, htarget, rfl, finds⟩ := find_eq_ok_iff.1 hfind
  have hnode := node?_of_get? finds.there
  obtain ⟨node', hnode', hkind, -⟩ := h.node _ _ hnode
  obtain ⟨entry', hentry', rfl⟩ := node?_eq_some_iff.1 hnode'
  refine ⟨entry', find_eq_ok_iff.2 ⟨target, h.target htarget ?_, rfl, hentry', ?_⟩, hentry'⟩
  · rintro dir n slash rfl hfree
    cases hnode.symm.trans hfree
  · intro dir n slash heq
    obtain ⟨short, hdir⟩ := finds.name dir n slash heq
    refine ⟨short, fun hslash => kind_eq_directory_iff.1 ?_⟩
    rw [hkind, hdir hslash, Node.kind]

/-- A directory that a path leads to on the smaller disk is there on the larger one. -/
theorem find_directory (h : Persists d d') {follow : Bool} {l : Location} {entry : Entry}
    (hfind : d.find follow p = .ok (l, entry)) (isDir : entry.node = .directory) :
    ∃ entry', d'.find follow p = .ok (l, entry') ∧ entry'.node = .directory := by
  obtain ⟨entry', hfind', hget'⟩ := h.find hfind
  obtain ⟨-, -, -, hget⟩ := of_find hfind
  obtain ⟨node', hnode', -, hsame⟩ := h.node l _ (node?_of_get? hget)
  rw [isDir] at hsame
  exact ⟨entry', hfind', (Option.some.inj ((node?_of_get? hget').symm.trans hnode')).trans (hsame nofun)⟩

/-- A path that names a directory goes on to do so. -/
theorem isDirectory (h : Persists d d') (hp : d.isDirectory p = true) : d'.isDirectory p = true := by
  unfold Disk.isDirectory at hp ⊢
  cases hfind : d.find true p with
  | error fault => rw [hfind] at hp; cases hp
  | ok found =>
    obtain ⟨l, entry⟩ := found
    rw [hfind] at hp
    obtain ⟨entry', hfind', isDir⟩ := h.find_directory hfind (kind_eq_directory_iff.1 (beq_iff_eq.1 hp))
    rw [hfind']
    simp only [isDir]
    rfl

/-- A path that leads to a name without following a link at its end still leads there. -/
theorem target_keep (h : Persists d d') (tree : d'.IsTree)
    (hp : d.target .keep p = .ok (.name dir n slash)) :
    d'.target .keep p = .ok (.name dir n slash) := by
  obtain ⟨hvalid, hproceed⟩ := of_target_eq_ok hp
  obtain ⟨k, hk, ⟨l, e, heq, -⟩ | ⟨dir', n', before, heq, hsteps, route⟩⟩ :=
    (walks_of_proceed hproceed).route_keep
  · cases heq
  cases heq
  have hkept : ∀ {m node}, d.node? m = some node → node.kind ≠ .file → d'.node? m = some node := by
    intro m node hm hne
    obtain ⟨node', hm', -, hsame⟩ := h.node m node hm
    rw [hm', hsame hne]
  have route' := route.mono (fun _ hm => hkept hm nofun) fun _ _ hm => hkept hm nofun
  obtain ⟨j, hj⟩ := Nat.exists_eq_add_of_le hk
  rw [target_of_isValid hvalid, h.workingDirectory, hsteps, hj,
    route'.proceed tree (f := .here) (List.cons_ne_nil _ _), proceed_name, if_pos ⟨rfl, rfl⟩]
  rfl

end Persists

/-- Where a path leads to a name, a slash at its end is not forgotten. -/
theorem endsInSlash_of_target (hp : d.target .keep p = .ok (.name dir n slash)) :
    p.endsInSlash = slash := by
  obtain ⟨-, hproceed⟩ := of_target_eq_ok hp
  obtain ⟨-, -, ⟨l, e, heq, -⟩ | ⟨dir', n', before, heq, -⟩⟩ := (walks_of_proceed hproceed).route_keep
  · cases heq
  · exact (Target.name.inj heq).2.2.symm

/-! ## Disks that extend -/

/-- What is on the disk `d` is on the disk `d'`, but for the identities of files. -/
structure Extends (d d' : Disk) : Prop where
  node : ∀ l node, d.node? l = some node → ∃ node', d'.node? l = some node' ∧ node'.shown = node.shown
  workingDirectory : d'.workingDirectory = d.workingDirectory

namespace Extends

theorem refl (d : Disk) : Extends d d := ⟨fun _ node h => ⟨node, h, rfl⟩, rfl⟩

theorem trans (h : Extends d d') (h' : Extends d' d'') : Extends d d'' where
  node l node hl := by
    obtain ⟨node', hl', hshown⟩ := h.node l node hl
    obtain ⟨node'', hl'', hshown'⟩ := h'.node l node' hl'
    exact ⟨node'', hl'', hshown'.trans hshown⟩
  workingDirectory := h'.workingDirectory.trans h.workingDirectory

theorem ofMade {now : Time} {mode : Mode} (m : d.Made now p mode d' dir n) : Extends d d' :=
  ⟨fun _ node hl => ⟨node, m.node?_of_some hl, rfl⟩, m.workingDirectory⟩

/-- A disk that looks the same wherever anything is. -/
theorem of_alike {times : Bool} {Q : Location → Prop} [DecidablePred Q] (alike : Alike times Q d d')
    (all : ∀ l, ¬ Q l → d.node? l = none) : Extends d d' where
  node l node hl := by
    have hq : Q l := by
      by_contra hq
      rw [all l hq] at hl
      cases hl
    obtain ⟨e, he, rfl⟩ := node?_eq_some_iff.1 hl
    obtain ⟨hnone, -⟩ | ⟨e₁, e₂, h₁, h₂, hshown⟩ := alike.get?_cases hq
    · rw [he] at hnone; cases hnone
    · cases he.symm.trans h₁
      exact ⟨e₂.node, node?_of_get? h₂, (Entry.node_shown hshown).symm⟩
  workingDirectory := alike.workingDirectory.symm

theorem persists (h : Extends d d') : Persists d d' where
  node l node hl := by
    obtain ⟨node', hl', hshown⟩ := h.node l node hl
    refine ⟨node', hl', Node.kind_eq_of_shown hshown, fun hne => ?_⟩
    obtain ⟨rfl, rfl⟩ | ⟨i, j, bytes, -, rfl⟩ | ⟨link, rfl, rfl⟩ := Node.shown_eq_cases hshown
    · rfl
    · exact absurd rfl hne
    · rfl
  workingDirectory := h.workingDirectory

/-- What a path names on the smaller disk it names on the larger one. -/
theorem find (h : Extends d d') {follow : Bool} {l : Location} {entry : Entry}
    (hfind : d.find follow p = .ok (l, entry)) :
    ∃ entry', d'.find follow p = .ok (l, entry') ∧ entry'.node.shown = entry.node.shown := by
  obtain ⟨entry', hfind', hget'⟩ := h.persists.find hfind
  obtain ⟨target, -, rfl, hget⟩ := of_find hfind
  obtain ⟨node', hnode', hshown⟩ := h.node _ _ (node?_of_get? hget)
  obtain rfl := Option.some.inj ((node?_of_get? hget').symm.trans hnode')
  exact ⟨entry', hfind', hshown⟩

/-- A file that can be read keeps its text. -/
theorem readText (h : Extends d d') {text : String} (hread : d.readText p = .ok text) :
    d'.readText p = .ok text := by
  unfold Disk.readText readBytes at hread ⊢
  cases hfind : d.find true p with
  | error fault => rw [hfind] at hread; cases hread
  | ok found =>
    obtain ⟨l, entry⟩ := found
    obtain ⟨entry', hfind', hshown⟩ := h.find hfind
    rw [hfind] at hread
    rw [hfind']
    obtain ⟨-, hdir⟩ | ⟨i, j, bytes, hnode', hnode⟩ | ⟨link, -, hlink⟩ := Node.shown_eq_cases hshown
    · simp only [bind, Except.bind, hdir] at hread; cases hread
    · simp only [bind, Except.bind, hnode] at hread
      simp only [bind, Except.bind, hnode']
      exact hread
    · simp only [bind, Except.bind, hlink] at hread; cases hread

end Extends

end Disk

namespace Tree

/-- Making directories only adds to the disk. -/
theorem extends_makeDirectories {p : Path} {w : World} (h : w.disk.IsSound p) (mode : Mode) :
    w.disk.Extends ((makeDirectories p mode).run w).2.disk := by
  refine (makeDirectoriesAlong_keeps (I := fun w' => w'.disk.IsSound p ∧ w.disk.Extends w'.disk)
    (fun q hq w' hw' => ?_) w ⟨h, .refl _⟩).2
  have hq := (Path.of_mem_ancestors hq).1
  rw [Action.run_change]
  cases hmake : w'.disk.makeDirectory (Action.time w') q mode with
  | error fault => exact hw'
  | ok d =>
    have hsound := hw'.1.of_isAbsolute_eq hq
    obtain ⟨dir, n, made⟩ := Disk.made_of_makeDirectory hsound hmake
    exact ⟨(made.isSound hsound).of_isAbsolute_eq hq.symm, hw'.2.trans (.ofMade made)⟩

end Tree

end TwinTrees
