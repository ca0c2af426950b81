import TwinTrees.Proofs.Disk.Directory

/-!
# What requests have done when they succeed

One lemma for each request: if it is answered without an error, where its path leads, what was there,
and which disk it leaves. Whoever wants to know what a request keeps starts from these and not from
the definition of the request.
-/

namespace TwinTrees.Disk

variable {d d' : Disk} {p : Path} {l : Location} {e : Entry} {mode : Mode} {now : Time}
  {f : OpenFile}

/-- Where a path leads to something that is no link, it leads if links at its end are followed. -/
theorem target_follow_of_notLink (t : d.IsTree) {last : LastLink} {target : Target}
    (h : d.target last p = .ok target) (there : ∀ dir n slash, target = .name dir n slash →
      ∃ node, d.node? (dir ++ [n]) = some node ∧ node.kind ≠ .symlink) :
    d.target .follow p = .ok target := by
  obtain ⟨valid, hproceed⟩ := of_target_eq_ok h
  rw [target_of_isValid valid, ((walks_of_proceed hproceed).follow t there).proceed]
  rfl

/-- What is found at a path and is no link is found through links. -/
theorem find_of_lookAt (t : d.IsTree) (h : d.lookAt p = .ok (l, e)) (notLink : e.node.kind ≠ .symlink) :
    d.find true p = .ok (l, e) := by
  obtain ⟨target, htarget, rfl, finds⟩ := find_eq_ok_iff.1 h
  refine find_eq_ok_iff.2 ⟨target, target_follow_of_notLink t htarget ?_, rfl, finds⟩
  rintro dir n slash rfl
  exact ⟨e.node, node?_of_get? finds.there, notLink⟩

/-- There is a way along a path to the directory that it names. -/
theorem names_of_find (t : d.IsTree) (h : d.find true p = .ok (l, e)) (isDir : e.node = .directory) :
    d.Names p l := by
  have hthere : d.isDirectory p = true := by
    rw [isDirectory, h]
    exact beq_iff_eq.2 (kind_eq_directory_iff.2 isDir)
  obtain ⟨l', ⟨valid, k, few, route⟩, isDir'⟩ := (isDirectory_iff t).1 hthere
  obtain ⟨e', he', hnode⟩ := isDir_iff.1 isDir'
  cases h.symm.trans (route.find t few valid.noNul valid.nonempty valid.short he' hnode)
  exact ⟨valid, k, few, route⟩

/-- A file that a path leads to is found there. -/
theorem find_of_target (t : d.IsTree) {last : LastLink} {dir : Location} {n : Name}
    (htarget : d.target last p = .ok (.name dir n false)) (hget : d.get? (dir ++ [n]) = some e)
    (notLink : e.node.kind ≠ .symlink) : d.find true p = .ok (dir ++ [n], e) := by
  have hnode := node?_of_get? hget
  refine find_eq_ok_iff.2 ⟨.name dir n false, target_follow_of_notLink t htarget ?_, rfl, hget, ?_⟩
  · rintro _ _ _ ⟨⟩
    exact ⟨e.node, hnode, notLink⟩
  · rintro _ _ _ ⟨⟩
    exact ⟨Route.not_isTooLong t (node?_ne_none_of_eq hnode), nofun⟩

/-- What was listed is a directory. -/
theorem of_list {names : List (Name × Kind)} (h : d.list p = .ok names) :
    ∃ l e, d.find true p = .ok (l, e) ∧ e.node = .directory ∧ names = d.names l := by
  unfold list at h
  cases hfind : d.find true p with
  | error fault => rw [hfind] at h; cases h
  | ok found =>
    rw [hfind] at h
    simp only [bind, Except.bind] at h
    split at h
    · next hkind => cases h; exact ⟨_, _, rfl, kind_eq_directory_iff.1 hkind, rfl⟩
    · cases h

theorem IsTree.isName_of_list (t : d.IsTree) {names : List (Name × Kind)} (h : d.list p = .ok names)
    {x : Name × Kind} (hx : x ∈ names) : IsName x.1 := by
  obtain ⟨l, e, -, -, rfl⟩ := of_list h
  exact t.isName_of_mem_names hx

/-- The path leads to a name in a directory at which there is nothing. -/
structure LeadsToFree (d : Disk) (last : LastLink) (p : Path) (dir : Location) (n : Name) : Prop where
  target : ∃ slash, d.target last p = .ok (.name dir n slash)
  short : isTooLong n = false
  free : d.node? (dir ++ [n]) = none

theorem LeadsToFree.of_child {last : LastLink} {dir : Location} {n : Name} {slash : Bool}
    (target : d.target last p = .ok (.name dir n slash)) (child : d.child? dir n = .ok none) :
    d.LeadsToFree last p dir n :=
  have hchild := of_child?_eq_ok child
  ⟨⟨slash, target⟩, hchild.1, node?_eq_none_iff.2 hchild.2⟩

/-- The name to which a path leads is one in a directory. -/
theorem LeadsToFree.spot {last : LastLink} {dir : Location} {n : Name}
    (free : d.LeadsToFree last p dir n) (sound : d.IsSound p) : d.IsDir dir ∧ IsName n := by
  obtain ⟨slash, htarget⟩ := free.target
  obtain ⟨-, hproceed⟩ := of_target_eq_ok htarget
  obtain ⟨isDir, hstep, hslash⟩ := (walks_of_proceed hproceed).spot sound.toIsTree sound.start
    (fun _ hm => Path.mem_steps_name hm) rfl
  exact ⟨isDir, hstep, hslash, free.short⟩

/-- A directory was made where nothing was. -/
theorem of_makeDirectory (h : d.makeDirectory now p mode = .ok d') :
    ∃ dir n, d.LeadsToFree .keep p dir n ∧
      d' = d.addEntry now dir n .directory (d.directoryMode dir mode) := by
  unfold makeDirectory at h
  cases htarget : d.target .keep p with
  | error fault => rw [htarget] at h; cases h
  | ok target =>
    rw [htarget] at h
    cases target with
    | directory l ending => cases h
    | name dir n slash =>
      simp only [bind, Except.bind] at h
      cases hchild : d.child? dir n with
      | error fault => rw [hchild] at h; cases h
      | ok found =>
        rw [hchild] at h
        cases found with
        | some e => cases h
        | none => cases h; exact ⟨dir, n, .of_child htarget hchild, rfl⟩

/-- A link was made where nothing was, by a path without a slash at the end. -/
theorem target_of_makeLink {old : Path} (h : d.makeLink now old p = .ok d') :
    ∃ dir n, d.target .keep p = .ok (.name dir n false) ∧ d.child? dir n = .ok none ∧
      d' = d.addEntry now dir n (.symlink old) 0o777 := by
  unfold makeLink at h
  simp only [bind, Except.bind, throw, throwThe, MonadExceptOf.throw] at h
  split at h
  · cases h
  · split at h
    · cases h
    · split at h
      · cases h
      · cases htarget : d.target .keep p with
        | error fault => rw [htarget] at h; cases h
        | ok target =>
          rw [htarget] at h
          cases target with
          | directory l ending => cases h
          | name dir n slash =>
            simp only at h
            cases hchild : d.child? dir n with
            | error fault => rw [hchild] at h; cases h
            | ok found =>
              rw [hchild] at h
              cases found with
              | some e => cases h
              | none =>
                simp only [Except.mapError] at h
                split at h
                · cases h
                · next hslash =>
                  cases h
                  obtain rfl : slash = false := Bool.eq_false_iff.2 hslash
                  exact ⟨dir, n, rfl, hchild, rfl⟩

/-- A link was made where nothing was. -/
theorem of_makeLink {old : Path} (h : d.makeLink now old p = .ok d') :
    ∃ dir n, d.LeadsToFree .keep p dir n ∧ d' = d.addEntry now dir n (.symlink old) 0o777 := by
  obtain ⟨dir, n, htarget, hchild, rfl⟩ := target_of_makeLink h
  exact ⟨dir, n, .of_child htarget hchild, rfl⟩

/-- A file was made where nothing was, by a path without a slash at the end, and is held open. -/
theorem target_of_createNew (h : d.createNew now p mode = .ok (f, d')) :
    ∃ dir n, d.target .keep p = .ok (.name dir n false) ∧ d.child? dir n = .ok none ∧
      f = ⟨dir ++ [n], d.nextId⟩ ∧ d' = d.addFile now dir n mode := by
  unfold createNew at h
  simp only [bind, Except.bind, throw, throwThe, MonadExceptOf.throw] at h
  cases htarget : d.target .keep p with
  | error fault => rw [htarget] at h; cases h
  | ok target =>
    rw [htarget] at h
    cases target with
    | directory l ending => cases h
    | name dir n slash =>
      simp only at h
      split at h
      · cases h
      · next hslash =>
        obtain rfl : slash = false := Bool.eq_false_iff.2 hslash
        cases hchild : d.child? dir n with
        | error fault => rw [hchild] at h; cases h
        | ok found =>
          rw [hchild] at h
          cases found with
          | some e => cases h
          | none => cases h; exact ⟨dir, n, rfl, hchild, rfl, rfl⟩

/-- A file was made where nothing was, and is held open. -/
theorem of_createNew (h : d.createNew now p mode = .ok (f, d')) :
    ∃ dir n, d.LeadsToFree .keep p dir n ∧ f = ⟨dir ++ [n], d.nextId⟩ ∧
      d' = d.addFile now dir n mode := by
  obtain ⟨dir, n, htarget, hchild, hf, hd⟩ := target_of_createNew h
  exact ⟨dir, n, .of_child htarget hchild, hf, hd⟩

/-- A file was opened: a new one, or one that is there, whose bytes may have been removed. -/
theorem of_openOrCreate {truncate : Bool} (h : d.openOrCreate now p mode truncate = .ok (f, d')) :
    ∃ dir n, d.target .followBare p = .ok (.name dir n false) ∧ f.location = dir ++ [n] ∧
      ((d.LeadsToFree .followBare p dir n ∧ f.id = d.nextId ∧ d' = d.addFile now dir n mode) ∨
        ∃ bytes, d.node? (dir ++ [n]) = some (.file f.id bytes) ∧
          d' = if truncate then d.store now f #[] else d) := by
  unfold openOrCreate at h
  simp only [bind, Except.bind, throw, throwThe, MonadExceptOf.throw] at h
  cases htarget : d.target .followBare p with
  | error fault => rw [htarget] at h; cases h
  | ok target =>
    rw [htarget] at h
    cases target with
    | directory l ending => cases h
    | name dir n slash =>
      simp only at h
      split at h
      · cases h
      · next hslash =>
        obtain rfl : slash = false := Bool.eq_false_iff.2 hslash
        cases hchild : d.child? dir n with
        | error fault => rw [hchild] at h; cases h
        | ok found =>
          rw [hchild] at h
          cases found with
          | none => cases h; exact ⟨dir, n, rfl, rfl, .inl ⟨.of_child htarget hchild, rfl, rfl⟩⟩
          | some e =>
            simp only [Except.mapError] at h
            split at h
            · cases h
            · cases h
            · next id bytes hnode =>
              cases h
              have hget := (of_child?_eq_ok hchild).2
              exact ⟨dir, n, rfl, rfl, .inr ⟨bytes, by rw [node?_of_get? hget, hnode], rfl⟩⟩

/-- A file that is there was opened. -/
theorem of_openExisting (h : d.openExisting p = .ok f) :
    ∃ e bytes, d.find true p = .ok (f.location, e) ∧ e.node = .file f.id bytes := by
  unfold openExisting at h
  cases hfind : d.find true p with
  | error fault => rw [hfind] at h; cases h
  | ok found =>
    rw [hfind] at h
    simp only [bind, Except.bind] at h
    split at h
    · next hnode => cases h; exact ⟨_, _, rfl, hnode⟩
    · cases h

/-- What the path names was given another time. -/
theorem of_setTimes (h : d.setTimes p now = .ok d') :
    ∃ l e, d.find true p = .ok (l, e) ∧ d' = d.setTimesAt l now := by
  unfold setTimes at h
  cases hfind : d.find true p with
  | error fault => rw [hfind] at h; cases h
  | ok found => rw [hfind] at h; cases h; exact ⟨_, _, rfl, rfl⟩

/-- An entry was removed that is there and no directory, by a path without a slash at the end. -/
theorem target_of_removeFile (h : d.removeFile now p = .ok d') :
    ∃ dir n e, d.target .keep p = .ok (.name dir n false) ∧ d.get? (dir ++ [n]) = some e ∧
      e.node.kind ≠ .directory ∧ d' = d.removeEntry now dir n := by
  unfold removeFile at h
  simp only [bind, Except.bind, throw, throwThe, MonadExceptOf.throw] at h
  cases htarget : d.target .keep p with
  | error fault => rw [htarget] at h; cases h
  | ok target =>
    rw [htarget] at h
    cases target with
    | directory l ending => cases h
    | name dir n slash =>
      simp only at h
      cases hchild : d.child? dir n with
      | error fault => rw [hchild] at h; cases h
      | ok found =>
        rw [hchild] at h
        cases found with
        | none => cases h
        | some e =>
          simp only [Except.mapError] at h
          split at h
          · cases h
          · next hkind =>
            split at h
            · cases h
            · next hslash =>
              cases h
              obtain rfl : slash = false := Bool.eq_false_iff.2 hslash
              exact ⟨dir, n, e, rfl, (of_child?_eq_ok hchild).2, hkind, rfl⟩

/-- An entry was removed that is no directory. -/
theorem of_removeFile (h : d.removeFile now p = .ok d') :
    ∃ dir n slash, d.target .keep p = .ok (.name dir n slash) ∧ ¬ d.IsDir (dir ++ [n]) ∧
      d' = d.removeEntry now dir n := by
  obtain ⟨dir, n, e, htarget, hget, hkind, rfl⟩ := target_of_removeFile h
  refine ⟨dir, n, false, htarget, ?_, rfl⟩
  rw [IsDir, node?_of_get? hget, Option.some.injEq, ← kind_eq_directory_iff]
  exact hkind

/-- A directory was removed that is there and empty. -/
theorem target_of_removeDirectory (h : d.removeDirectory now p = .ok d') :
    ∃ dir n slash e, d.target .keep p = .ok (.name dir n slash) ∧ d.get? (dir ++ [n]) = some e ∧
      e.node = .directory ∧ d.names (dir ++ [n]) = [] ∧ d' = d.removeEntry now dir n := by
  unfold removeDirectory at h
  simp only [bind, Except.bind, throw, throwThe, MonadExceptOf.throw] at h
  cases htarget : d.target .keep p with
  | error fault => rw [htarget] at h; cases h
  | ok target =>
    rw [htarget] at h
    cases target with
    | directory l ending => cases ending <;> cases h
    | name dir n slash =>
      simp only at h
      cases hchild : d.child? dir n with
      | error fault => rw [hchild] at h; cases h
      | ok found =>
        rw [hchild] at h
        cases found with
        | none => cases h
        | some e =>
          simp only [Except.mapError] at h
          split at h
          · cases h
          · next hkind =>
            split at h
            · next hnil =>
              cases h
              exact ⟨dir, n, slash, e, rfl, (of_child?_eq_ok hchild).2,
                kind_eq_directory_iff.1 (not_not.1 hkind), List.isEmpty_iff.1 hnil, rfl⟩
            · cases h

/-- An empty directory was removed. -/
theorem of_removeDirectory (h : d.removeDirectory now p = .ok d') :
    ∃ dir n slash, d.target .keep p = .ok (.name dir n slash) ∧ d.names (dir ++ [n]) = [] ∧
      d' = d.removeEntry now dir n := by
  obtain ⟨dir, n, slash, -, htarget, -, -, hnames, rfl⟩ := target_of_removeDirectory h
  exact ⟨dir, n, slash, htarget, hnames, rfl⟩

end TwinTrees.Disk
