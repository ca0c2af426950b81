import Mathlib.Data.List.Forall2
import TwinTrees.Proofs.Disk.Growth
import TwinTrees.Proofs.Disk.Pruning
import TwinTrees.Verb.Remove

/-!
# What `rm` removes

A name stands for an entry of a directory (`Disk.OwnEntry`): a link at the end of its path is not
followed. The entry can be removed unless it is a directory with something in it (`Disk.Removable`).

The names are taken in order, over all arguments, until one of them cannot be removed or an argument
is malformed. `Disk.Removal` says what is gone then: the entries that the names taken so far had on the
disk that the verb was started on, each of them once, and a directory only after all that was in it.
All other entries are what they were, but for the time of the directories and the log.
-/

namespace TwinTrees

namespace Disk

variable {d d' d'' : Disk} {p : Path} {l dir : Location} {n : Name} {e : Entry} {t : Time}
  {sink : LogSink}

/-! ## The entry of a path -/

/-- The path leads to the name that the entry has in its directory. After a slash the entry is a
directory. -/
structure OwnEntry (d : Disk) (p : Path) (l : Location) (e : Entry) : Prop where
  target : ∃ dir n slash, d.target .keep p = .ok (.name dir n slash) ∧ dir ++ [n] = l ∧
    (slash = true → e.node = .directory)
  there : d.get? l = some e

/-- The entry of a path that can be removed: a directory has to be empty. -/
structure Removable (d : Disk) (p : Path) (l : Location) (e : Entry) : Prop extends
    OwnEntry d p l e where
  empty : e.node = .directory → d.names l = []

/-- The removal of what was found at a path. -/
def removeFound (d : Disk) (t : Time) (p : Path) (e : Entry) : Except IoError Disk :=
  if e.node.kind = .directory then d.removeDirectory t p else d.removeFile t p

theorem OwnEntry.lookAt (h : d.OwnEntry p l e) (tree : d.IsTree) : d.lookAt p = .ok (l, e) := by
  obtain ⟨⟨dir, n, slash, htarget, rfl, isDir⟩, there⟩ := h
  have hshort := (tree.named (node?_ne_none_of_eq (node?_of_get? there))).short
  have hslash := endsInSlash_of_target htarget
  cases slash with
  | false => exact lookAt_of_target htarget hslash hshort there
  | true =>
    have hdir := isDir rfl
    have hfollow : d.target .follow p = .ok (.name dir n true) := by
      refine target_follow_of_notLink tree htarget ?_
      rintro dir' n' slash' ⟨⟩
      exact ⟨e.node, node?_of_get? there, by rw [hdir]; nofun⟩
    refine find_eq_ok_iff.2 ⟨.name dir n true, ?_, rfl, there, ?_⟩
    · rw [hslash, Bool.or_true, if_pos rfl, hfollow]
    · rintro _ _ _ ⟨⟩
      exact ⟨hshort, fun _ => hdir⟩

/-- What a path names on what is left of a disk it named before. -/
theorem OwnEntry.persists (h : d'.OwnEntry p l e) (persists : Persists d' d) (tree : d.IsTree) :
    ∃ e', d.OwnEntry p l e' := by
  obtain ⟨⟨dir, n, slash, htarget, rfl, isDir⟩, there⟩ := h
  obtain ⟨node, hnode, -, hsame⟩ := persists.node _ _ (node?_of_get? there)
  obtain ⟨e', he', rfl⟩ := node?_eq_some_iff.1 hnode
  refine ⟨e', ⟨dir, n, slash, persists.target_keep tree htarget, rfl, fun hslash => ?_⟩, he'⟩
  rw [hsame (by rw [isDir hslash]; nofun), isDir hslash]

/-- A removable entry is removed. -/
theorem Removable.removeFound (h : d.Removable p l e) (tree : d.IsTree) (t : Time) :
    ∃ dir n, dir ++ [n] = l ∧ d.removeFound t p e = .ok (d.removeEntry t dir n) := by
  obtain ⟨⟨⟨dir, n, slash, htarget, rfl, isDir⟩, there⟩, empty⟩ := h
  have hchild : d.child? dir n = .ok (some e) := by
    rw [child?_of_short (tree.named (node?_ne_none_of_eq (node?_of_get? there))).short, there]
  refine ⟨dir, n, rfl, ?_⟩
  unfold Disk.removeFound
  split
  · next hkind =>
    have hnames := empty (kind_eq_directory_iff.1 hkind)
    unfold removeDirectory
    simp only [htarget, bind, Except.bind, hchild, Except.mapError, hkind, hnames]
    rfl
  · next hkind =>
    have hslash : slash = false := by
      rw [Bool.eq_false_iff]
      exact fun hslash => hkind (kind_eq_directory_iff.2 (isDir hslash))
    unfold removeFile
    simp only [htarget, bind, Except.bind, hchild, Except.mapError, if_neg hkind, hslash]
    rfl

/-- Only what can be removed is removed. -/
theorem removable_of_removeFound (tree : d.IsTree) (look : d.lookAt p = .ok (l, e))
    (h : d.removeFound t p e = .ok d') : d.Removable p l e := by
  unfold removeFound at h
  split at h
  · obtain ⟨dir, n, slash, e', htarget, there, isDir, hnames, -⟩ := target_of_removeDirectory h
    have own : d.OwnEntry p (dir ++ [n]) e' := ⟨⟨dir, n, slash, htarget, rfl, fun _ => isDir⟩, there⟩
    cases (own.lookAt tree).symm.trans look
    exact ⟨own, fun _ => hnames⟩
  · obtain ⟨dir, n, e', htarget, there, hkind, -⟩ := target_of_removeFile h
    have own : d.OwnEntry p (dir ++ [n]) e' := ⟨⟨dir, n, false, htarget, rfl, nofun⟩, there⟩
    cases (own.lookAt tree).symm.trans look
    exact ⟨own, fun isDir => absurd (kind_eq_directory_iff.2 isDir) hkind⟩

/-! ## What is gone -/

/-- Of the disk `d`, the entries of the paths are removed, one after the other, and `d'` is left (see
the module docstring). -/
structure Removal (sink : LogSink) (paths : List Path) (removed : List Location) (d d' : Disk) :
    Prop where
  tree : d'.IsTree
  workingDirectory : d'.workingDirectory = d.workingDirectory
  named : List.Forall₂ (fun p l => ∃ e, d.OwnEntry p l e) paths removed
  nodup : removed.Nodup
  emptied : ∀ earlier l later, removed = earlier ++ l :: later → d.IsDir l →
    ∀ n, d.node? (l ++ [n]) ≠ none → l ++ [n] ∈ earlier
  gone : ∀ l ∈ removed, d'.get? l = none
  free : ∀ l, d.get? l = none → d'.get? l = none
  kept : ∀ l e, l ∉ removed → d.get? l = some e → ∃ e', d'.get? l = some e' ∧ e.Kept sink l e'

namespace Removal

variable {paths paths' : List Path} {removed removed' : List Location}

theorem refl (sink : LogSink) (tree : d.IsTree) : Removal sink [] [] d d where
  tree := tree
  workingDirectory := rfl
  named := .nil
  nodup := List.nodup_nil
  emptied earlier l later h := by cases earlier <;> cases h
  gone := nofun
  free _ := id
  kept l e _ h := ⟨e, h, .same⟩

/-- What is left was there before. -/
theorem persists (h : Removal sink paths removed d d') : Persists d' d where
  node l node hl := by
    obtain ⟨e', he', rfl⟩ := node?_eq_some_iff.1 hl
    cases hget : d.get? l with
    | none => rw [h.free l hget] at he'; cases he'
    | some e =>
      have hmem : l ∉ removed := fun hmem => by rw [h.gone l hmem] at he'; cases he'
      obtain ⟨e'', he'', hkept⟩ := h.kept l e hmem hget
      obtain rfl := Option.some.inj (he'.symm.trans he'')
      refine ⟨e.node, node?_of_get? hget, hkept.kind.symm, fun hne => Eq.symm (hkept.node ?_)⟩
      intro id bytes hfile
      rw [hkept.kind, hfile] at hne
      exact absurd rfl hne
  workingDirectory := h.workingDirectory.symm

theorem exists_of_mem (h : Removal sink paths removed d d') (hl : l ∈ removed) :
    ∃ e, d.get? l = some e := by
  have there : List.Forall₂ (fun l p => (∃ e, d.get? l = some e) ∧ True) removed paths :=
    h.named.flip.imp fun _ _ ⟨e, own⟩ => ⟨⟨e, own.there⟩, trivial⟩
  exact ((List.forall₂_and_left _ _).1 there).1 l hl

/-- What is in a directory that stays is removed or stays. -/
theorem mem_or_stays (h : Removal sink paths removed d d') (hl : d.node? l ≠ none) :
    l ∈ removed ∨ d'.node? l ≠ none := by
  by_cases hmem : l ∈ removed
  · exact .inl hmem
  · obtain ⟨node, hnode⟩ := Option.ne_none_iff_exists'.1 hl
    obtain ⟨e, he, -⟩ := node?_eq_some_iff.1 hnode
    obtain ⟨e', he', -⟩ := h.kept l e hmem he
    exact .inr (node?_ne_none_of_eq (node?_of_get? he'))

/-- Removing goes on. -/
theorem trans (tree : d.IsTree) (h : Removal sink paths removed d d')
    (h' : Removal sink paths' removed' d' d'') :
    Removal sink (paths ++ paths') (removed ++ removed') d d'' where
  tree := h'.tree
  workingDirectory := h'.workingDirectory.trans h.workingDirectory
  named := by
    refine List.rel_append h.named (h'.named.imp ?_)
    rintro p l ⟨e, own⟩
    exact own.persists h.persists tree
  nodup := by
    refine List.nodup_append.2 ⟨h.nodup, h'.nodup, ?_⟩
    rintro l hl m hm rfl
    obtain ⟨e, he⟩ := h'.exists_of_mem hm
    rw [h.gone l hl] at he
    cases he
  emptied earlier l later heq isDir n hn := by
    -- a directory that goes in the second part is there in between, with what is left in it
    have second : ∀ more, removed' = more ++ l :: later → l ++ [n] ∈ removed ++ more := by
      intro more hmore
      obtain ⟨e', he'⟩ := h'.exists_of_mem (l := l) (by rw [hmore]; simp)
      obtain ⟨node, hnode, hkind, -⟩ := h.persists.node l _ (node?_of_get? he')
      have isDir' : d'.IsDir l := by
        obtain rfl := Option.some.inj (isDir.symm.trans hnode)
        exact isDir_of_get? he' (kind_eq_directory_iff.1 hkind.symm)
      obtain hremoved | hstays := h.mem_or_stays hn
      · exact List.mem_append_left _ hremoved
      · exact List.mem_append_right _ (h'.emptied more l later hmore isDir' n hstays)
    obtain ⟨more, rfl, hmore⟩ | ⟨more, hremoved, hlater⟩ := List.append_eq_append_iff.1 heq
    · exact second more hmore
    · cases more with
      | nil =>
        rw [List.append_nil] at hremoved
        simpa [hremoved] using second [] hlater.symm
      | cons m more =>
        obtain ⟨rfl, -⟩ := List.cons_eq_cons.1 hlater
        exact h.emptied earlier l more hremoved isDir n hn
  gone l hl := by
    obtain hl | hl := List.mem_append.1 hl
    · exact h'.free l (h.gone l hl)
    · exact h'.gone l hl
  free l hl := h'.free l (h.free l hl)
  kept l e hl he := by
    rw [List.mem_append, not_or] at hl
    obtain ⟨e', he', hkept⟩ := h.kept l e hl.1 he
    obtain ⟨e'', he'', hkept'⟩ := h'.kept l e' hl.2 he'
    exact ⟨e'', he'', hkept.trans hkept'⟩

/-- Events are written to the log. -/
theorem log (h : Removal sink paths removed d d') {path : Path} {f : OpenFile}
    (hsink : sink = .file path f) (bytes : Bytes) :
    Removal sink paths removed d (d'.append t f bytes) :=
  { h with
    tree := h.tree.store
    gone := fun l hl => get?_store_eq_none_iff.2 (h.gone l hl)
    free := fun l hl => get?_store_eq_none_iff.2 (h.free l hl)
    kept := fun l e hl he => by
      obtain ⟨e', he', hkept⟩ := h.kept l e hl he
      obtain ⟨e'', he'', hlogged⟩ := kept_append hsink he'
      exact ⟨e'', he'', hkept.trans hlogged⟩ }

end Removal

/-- There is nothing below an entry that can be removed. -/
theorem Removable.below (h : d.Removable p l e) (tree : d.IsTree) (n : Name) :
    d.node? (l ++ [n]) = none := by
  by_contra hn
  have isDir := (node?_of_get? h.there).symm.trans (tree.parent hn)
  exact hn (names_eq_nil_iff.1 (h.empty (Option.some.inj isDir)) n)

/-- A removable entry goes alone. -/
theorem Removable.removal (h : d.Removable p (dir ++ [n]) e) (tree : d.IsTree) (sink : LogSink)
    (t : Time) : Removal sink [p] [dir ++ [n]] d (d.removeEntry t dir n) where
  tree := tree.removeEntry (h.below tree)
  workingDirectory := rfl
  named := .cons ⟨e, h.toOwnEntry⟩ .nil
  nodup := List.nodup_singleton _
  emptied earlier m later heq _ name hname := by
    cases earlier with
    | nil =>
      obtain ⟨rfl, -⟩ := List.cons_eq_cons.1 heq
      exact absurd (h.below tree name) hname
    | cons m earlier => simp at heq
  gone m hm := by rw [List.mem_singleton.1 hm, get?_removeEntry, if_pos rfl]
  free m hm := by
    rw [get?_removeEntry, hm]
    split
    · rfl
    · split <;> rfl
  kept m e' hm he' := by
    rw [get?_removeEntry, if_neg (List.mem_singleton.not.1 hm), he']
    split
    · next hdir =>
      have isDir := tree.parent (node?_ne_none_of_eq (node?_of_get? h.there))
      rw [← hdir, IsDir, node?_of_get? he'] at isDir
      exact ⟨_, rfl, .listed (Option.some.inj isDir) t⟩
    · exact ⟨e', rfl, .same⟩

/-- Why a removal failed, on the disk that it left. -/
inductive RemovalFault (d : Disk) (p : Path) : CommandError → Prop
  | missing (look : d.lookAt p = .error (.os Errno.noEntry)) : RemovalFault d p (.notFound p)
  | unseen {fault : IoError} (look : d.lookAt p = .error fault) (seen : fault ≠ .os Errno.noEntry) :
    RemovalFault d p (.io "stat" p fault)
  | refused {l : Location} {e : Entry} {t : Time} {fault : IoError} (look : d.lookAt p = .ok (l, e))
      (refused : d.removeFound t p e = .error fault) : RemovalFault d p (.io "rm" p fault)

namespace RemovalFault

variable {fault : CommandError}

theorem not_removable (h : RemovalFault d p fault) (tree : d.IsTree) : ¬ d.Removable p l e := by
  intro removable
  have hlook := removable.lookAt tree
  cases h with
  | missing look => cases look.symm.trans hlook
  | unseen look => cases look.symm.trans hlook
  | refused look refused =>
    cases look.symm.trans hlook
    obtain ⟨dir, n, -, hremove⟩ := removable.removeFound tree _
    cases hremove.symm.trans refused

/-- That nothing was found is said if and only if nothing is there. -/
theorem eq_notFound_iff (h : RemovalFault d p fault) (q : Path) :
    fault = .notFound q ↔ q = p ∧ d.lookAt p = .error (.os Errno.noEntry) := by
  cases h with
  | missing look => exact ⟨fun h => ⟨(CommandError.notFound.inj h).symm, look⟩, fun h => h.1 ▸ rfl⟩
  | unseen look seen =>
    refine ⟨nofun, fun h => ?_⟩
    cases look.symm.trans h.2
    exact absurd rfl seen
  | refused look => exact ⟨nofun, fun h => by cases look.symm.trans h.2⟩

end RemovalFault

end Disk

namespace Verb

open Disk (Removal RemovalFault)

/-! ## The names in the arguments -/

/-- The names that sided arguments give, with their sides, up to the first argument that is
malformed, and what is wrong with that one. -/
def readSides : List String → List (Side × String) × Option CommandError
  | [] => ([], none)
  | argument :: rest =>
    match readSided argument with
    | .error fault => ([], some fault)
    | .ok (side, names) => (names.map (side, ·) ++ (readSides rest).1, (readSides rest).2)

/-- The action is done for the names in order, and then what is malformed is reported. -/
theorem forEachSided_eq (arguments : List String) (act : Side → String → Action CommandError Unit) :
    forEachSided arguments act =
      ((readSides arguments).1.forM (fun x => act x.1 x.2) >>= fun _ =>
        (readSides arguments).2.elim (pure ()) throw) := by
  unfold forEachSided
  induction arguments with
  | nil => rfl
  | cons argument rest ih =>
    rw [List.forM_eq_forM] at ih ⊢
    rw [List.forM_cons, ih, readSides]
    cases readSided argument with
    | error fault => rfl
    | ok read =>
      simp only [List.forM_eq_forM, List.forM_append, List.forM_map, bind_assoc]
      rfl

theorem of_readSided_error {argument : String} {fault : CommandError}
    (h : readSided argument = .error fault) : ∃ why, fault = .invalidArgument why := by
  unfold readSided at h
  split at h
  · cases h; exact ⟨_, rfl⟩
  · next key names _ =>
    cases hside : Side.ofString? (String.ofList key) with
    | error other =>
      rw [hside] at h
      cases h
      unfold Side.ofString? at hside
      split at hside
      · cases hside
      · split at hside
        · cases hside
        · cases hside; exact ⟨_, rfl⟩
    | ok side =>
      rw [hside] at h
      simp only [bind, Except.bind] at h
      split at h
      · cases h; exact ⟨_, rfl⟩
      · cases h

theorem of_readSides_error {arguments : List String} {fault : CommandError}
    (h : (readSides arguments).2 = some fault) : ∃ why, fault = .invalidArgument why := by
  induction arguments with
  | nil => cases h
  | cons argument rest ih =>
    rw [readSides] at h
    split at h
    · next hread => cases h; exact of_readSided_error hread
    · exact ih h

variable {env : Environment} {side : Side} {name : String} {w w' : World}
  {x : Except CommandError Unit}

/-- An event is written to the log, and nothing else changes. -/
theorem exists_run_write {ε : Type} (tree : w.disk.IsTree) (env : Environment) (event : Event) :
    ∃ v, (env.write event : Action ε Unit).run w = (.ok (), v) ∧
      Removal env.sink [] [] w.disk v.disk ∧ Disk.Persists w.disk v.disk := by
  refine ⟨_, LogSink.run_write env.sink event w, ?_⟩
  cases hsink : env.sink with
  | console => exact ⟨.refl _ tree, .refl _⟩
  | file path f => exact ⟨(Removal.refl _ tree).log rfl _, Disk.persists_store⟩

/-- Where nothing is found nothing is done. -/
theorem run_removeEntry_of_error {fault : IoError}
    (look : w.disk.lookAt (env.resolve side name) = .error fault) :
    (removeEntry env side name).run w = (.error (if fault = .os Errno.noEntry then
      .notFound (env.resolve side name) else .io "stat" (env.resolve side name) fault), w) := by
  unfold removeEntry Tree.isThere Action.named
  rw [Action.run_bind, Action.run_mapError, Action.run_ask, look]
  by_cases hfault : fault = .os Errno.noEntry
  · simp only [if_pos hfault]
    rfl
  · simp only [if_neg hfault]
    rfl

/-- What is found is removed after that was written to the log. -/
theorem run_removeEntry_of_ok {found : Location × Entry}
    (look : w.disk.lookAt (env.resolve side name) = .ok found) {v : World}
    (logged : (env.write (.remove (env.resolve side name)) : Action CommandError Unit).run w =
      (.ok (), v)) {l : Location} {e : Entry}
    (look' : v.disk.lookAt (env.resolve side name) = .ok (l, e)) :
    (removeEntry env side name).run w = ((Action.change fun t d =>
      d.removeFound t (env.resolve side name) e).named "rm" (env.resolve side name)).run v := by
  unfold removeEntry Tree.isThere Action.named
  rw [Action.run_bind, Action.run_mapError, Action.run_ask, look]
  simp only [Except.mapError, Bool.not_true, Bool.false_eq_true, if_false]
  rw [Action.run_bind, logged]
  simp only
  rw [Action.run_bind, Action.run_mapError, Action.run_ask, look']
  rfl

/-- What becomes of the entry of one name. -/
theorem of_run_removeEntry (tree : w.disk.IsTree)
    (hrun : (removeEntry env side name).run w = (x, w')) :
    (x = .ok () ∧ ∃ l, Removal env.sink [env.resolve side name] [l] w.disk w'.disk) ∨
      ∃ fault, x = .error fault ∧ Removal env.sink [] [] w.disk w'.disk ∧
        RemovalFault w'.disk (env.resolve side name) fault := by
  cases hlook : w.disk.lookAt (env.resolve side name) with
  | error fault =>
    rw [run_removeEntry_of_error hlook] at hrun
    cases hrun
    refine .inr ⟨_, rfl, .refl _ tree, ?_⟩
    split
    · next hfree => exact .missing (hfree ▸ hlook)
    · next hseen => exact .unseen hlook hseen
  | ok found =>
    obtain ⟨l, found⟩ := found
    obtain ⟨v, hlogged, logged, persists⟩ :=
      exists_run_write (ε := CommandError) tree env (.remove (env.resolve side name))
    obtain ⟨e, hlook', -⟩ := persists.find hlook
    rw [run_removeEntry_of_ok hlook hlogged hlook', Action.named, Action.run_mapError,
      Action.run_change] at hrun
    cases hremove : v.disk.removeFound (Action.time v) (env.resolve side name) e with
    | error fault =>
      rw [hremove] at hrun
      cases hrun
      exact .inr ⟨_, rfl, logged, .refused hlook' hremove⟩
    | ok d =>
      have removable := Disk.removable_of_removeFound logged.tree hlook' hremove
      obtain ⟨dir, n, rfl, hremoved⟩ := removable.removeFound logged.tree (Action.time v)
      cases hremoved.symm.trans hremove
      rw [hremove] at hrun
      cases hrun
      exact .inl ⟨rfl, _, logged.trans tree (removable.removal logged.tree _ _)⟩

/-- What becomes of the entries of names that are taken in order. -/
theorem of_run_forM_removeEntry {names : List (Side × String)} (tree : w.disk.IsTree)
    (hrun : (names.forM fun x => removeEntry env x.1 x.2).run w = (x, w')) :
    ∃ before rest removed, names = before ++ rest ∧
      Removal env.sink (before.map fun x => env.resolve x.1 x.2) removed w.disk w'.disk ∧
      (x = .ok () ∧ rest = [] ∨ ∃ fault name later, x = .error fault ∧ rest = name :: later ∧
        RemovalFault w'.disk (env.resolve name.1 name.2) fault) := by
  induction names generalizing w with
  | nil =>
    cases hrun
    exact ⟨[], [], [], rfl, .refl _ tree, .inl ⟨rfl, rfl⟩⟩
  | cons name names ih =>
    rw [List.forM_eq_forM, List.forM_cons, Action.run_bind] at hrun
    cases hfirst : (removeEntry env name.1 name.2).run w with
    | mk y v =>
      rw [hfirst] at hrun
      obtain ⟨rfl, l, hremoval⟩ | ⟨fault, rfl, hremoval, hfault⟩ := of_run_removeEntry tree hfirst
      · obtain ⟨before, rest, removed, rfl, hrest, hend⟩ := ih hremoval.tree hrun
        exact ⟨name :: before, rest, l :: removed, rfl, hremoval.trans tree hrest, hend⟩
      · cases hrun
        exact ⟨[], _, [], rfl, hremoval, .inr ⟨fault, name, names, rfl, rfl, hfault⟩⟩

/-- The entries that are removed are those of the names in all arguments, in order, up to the first
name whose entry cannot be removed or the first malformed argument, and if there is neither, of all
names. Nothing else is lost or made or changed, but for the log and the times of directories. A name
cannot be removed if its path leads to no entry or to a directory with something in it, and it is
said to be missing if and only if nothing is there. -/
theorem remove_exact (tree : w.disk.IsTree) {arguments : List String} (nonempty : arguments ≠ [])
    (hrun : (remove env arguments).run w = (x, w')) :
    ∃ before rest removed, (readSides arguments).1 = before ++ rest ∧
      Removal env.sink (before.map fun x => env.resolve x.1 x.2) removed w.disk w'.disk ∧
      match x with
      | .ok () => rest = [] ∧ (readSides arguments).2 = none
      | .error fault =>
        (rest = [] ∧ (readSides arguments).2 = some fault ∧ ∀ q, fault ≠ .notFound q) ∨
        ∃ name later, rest = name :: later ∧
          RemovalFault w'.disk (env.resolve name.1 name.2) fault ∧
          (∀ l e, ¬ w'.disk.Removable (env.resolve name.1 name.2) l e) ∧
          ∀ q, fault = .notFound q ↔ q = env.resolve name.1 name.2 ∧
            w'.disk.lookAt (env.resolve name.1 name.2) = .error (.os Errno.noEntry) := by
  have hnames : arguments.isEmpty = false := by
    rw [Bool.eq_false_iff]
    exact fun h => nonempty (List.isEmpty_iff.1 h)
  unfold remove at hrun
  rw [hnames, if_neg Bool.false_ne_true, forEachSided_eq, Action.run_bind] at hrun
  cases hloop : ((readSides arguments).1.forM fun x => removeEntry env x.1 x.2).run w with
  | mk y v =>
    rw [hloop] at hrun
    obtain ⟨before, rest, removed, hsplit, hremoval, hend⟩ := of_run_forM_removeEntry tree hloop
    refine ⟨before, rest, removed, hsplit, ?_⟩
    obtain ⟨rfl, hrest⟩ | ⟨fault, name, later, rfl, hrest, hfault⟩ := hend
    · cases hstop : (readSides arguments).2 with
      | none =>
        rw [hstop] at hrun
        cases hrun
        exact ⟨hremoval, hrest, rfl⟩
      | some fault =>
        rw [hstop] at hrun
        cases hrun
        refine ⟨hremoval, .inl ⟨hrest, rfl, ?_⟩⟩
        obtain ⟨why, rfl⟩ := of_readSides_error hstop
        nofun
    · cases hrun
      exact ⟨hremoval, .inr ⟨name, later, hrest, hfault, fun l e => hfault.not_removable hremoval.tree,
        hfault.eq_notFound_iff⟩⟩

/-- A file, the directory that it leaves empty, and a link, before an argument that is malformed. -/
theorem remove_exact_until_malformed :
    let entry : Node → Entry := fun node => ⟨node, 0o755, ⟨0, 0⟩, ⟨0, 0⟩⟩
    let d : Disk := ⟨[([], entry .directory), (["l".toList], entry .directory),
      (["l".toList, "d".toList], entry .directory),
      (["l".toList, "d".toList, "f".toList], entry (.file 1 #[1])),
      (["l".toList, "k".toList], entry (.symlink ⟨"s"⟩)),
      (["l".toList, "s".toList], entry (.file 2 #[2])), (["t".toList], entry (.file 0 #[]))], 3, []⟩
    let w : World := ⟨⟨d, []⟩, .seeded 0, fun n => ⟨n, 0⟩, 0⟩
    let env : Environment :=
      ⟨"t.t", ⟨"/"⟩, ⟨"/l"⟩, ⟨"/r"⟩, ⟨0, 0⟩, 1, .file ⟨"/t"⟩ ⟨["t".toList], 0⟩⟩
    let arguments := ["lhs=d/f d k", "mid=s", "lhs=s"]
    (d.IsTree ∧ arguments ≠ []) ∧
      ∃ w', (remove env arguments).run w = (.error (.invalidArgument (.unknownSide "mid")), w') ∧
        Removal env.sink [⟨"/l/d/f"⟩, ⟨"/l/d"⟩, ⟨"/l/k"⟩]
          [["l".toList, "d".toList, "f".toList], ["l".toList, "d".toList], ["l".toList, "k".toList]]
          d w'.disk := by
  intro entry d w env arguments
  have tree : d.IsTree := .of_entries (by decide) rfl (by decide)
  obtain ⟨w', hrun⟩ : ∃ w', (remove env arguments).run w =
      (.error (.invalidArgument (.unknownSide "mid")), w') :=
    ⟨_, Prod.ext (by decide +kernel) rfl⟩
  refine ⟨⟨tree, by decide⟩, w', hrun, ?_⟩
  obtain ⟨before, rest, removed, hsplit, hremoval, hend⟩ :=
    remove_exact (w := w) tree (by decide) hrun
  obtain ⟨rfl, -, -⟩ | ⟨name, later, -, hfault, -⟩ := hend
  · obtain rfl : before = [(.lhs, "d/f"), (.lhs, "d"), (.lhs, "k")] := by
      rw [← List.append_nil before, ← hsplit]
      decide +kernel
    have hat : ∀ {p l} l', (∃ e, d.OwnEntry p l e) →
        (d.lookAt p).toOption.map Prod.fst = some l' → l = l' := by
      rintro p l l' ⟨e, own⟩ hl'
      rw [own.lookAt tree] at hl'
      exact Option.some.inj hl'
    have hpaths : ([(Side.lhs, "d/f"), (.lhs, "d"), (.lhs, "k")].map fun x => env.resolve x.1 x.2) =
        [⟨"/l/d/f"⟩, ⟨"/l/d"⟩, ⟨"/l/k"⟩] := by decide +kernel
    rw [hpaths] at hremoval
    match removed, hremoval.named, hremoval with
    | _, .cons h₁ (.cons h₂ (.cons h₃ .nil)), hremoval =>
      cases hat ["l".toList, "d".toList, "f".toList] h₁ (by decide +kernel)
      cases hat ["l".toList, "d".toList] h₂ (by decide +kernel)
      cases hat ["l".toList, "k".toList] h₃ (by decide +kernel)
      exact hremoval
  · cases hfault

end Verb

end TwinTrees
