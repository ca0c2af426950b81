import TwinTrees.Proofs.Disk.Directory
import TwinTrees.Tree.Remove

/-!
# Removing what a path names

A path that ends in a name and leads to an empty directory, perhaps through a link at its end, can
be removed, and then nothing is found at it (`Tree.remove_named`). If there is nothing at first, the
same holds. There is either the one or the other before directories can be made along a path
(`Tree.there_or_free_of_makeDirectories`), and if they cannot be made, the last of them is not there
afterwards (`Tree.not_isDirectory_of_makeDirectories`).
-/

namespace TwinTrees

namespace Disk

variable {d d' : Disk} {last : LastLink} {links k : Nat} {slash : Bool} {cur dir l : Location}
  {e : Ending} {n : Name} {steps : List Step} {p : Path} {now : Time}

/-- A way along two lists of steps is one along the first and one along the second. -/
theorem Route.split {before after : List Step} (r : d.Route k cur (before ++ after) l) :
    ∃ i j m, k = i + j ∧ d.Route i cur before m ∧ d.Route j m after l := by
  generalize hsteps : before ++ after = steps at r
  induction r generalizing before with
  | nil =>
    obtain ⟨rfl, rfl⟩ := List.append_eq_nil_iff.1 hsteps
    exact ⟨0, 0, _, rfl, .nil, .nil⟩
  | @here k cur l rest onward ih =>
    cases before with
    | nil =>
      obtain rfl : after = _ := hsteps
      exact ⟨0, _, _, (Nat.zero_add _).symm, .nil, .here onward⟩
    | cons st before =>
      obtain ⟨rfl, hrest⟩ := List.cons.inj hsteps
      obtain ⟨i, j, m, hk, r₁, r₂⟩ := ih hrest
      exact ⟨i, j, m, hk, .here r₁, r₂⟩
  | @up k cur l rest onward ih =>
    cases before with
    | nil =>
      obtain rfl : after = _ := hsteps
      exact ⟨0, _, _, (Nat.zero_add _).symm, .nil, .up onward⟩
    | cons st before =>
      obtain ⟨rfl, hrest⟩ := List.cons.inj hsteps
      obtain ⟨i, j, m, hk, r₁, r₂⟩ := ih hrest
      exact ⟨i, j, m, hk, .up r₁, r₂⟩
  | @directory k cur l n rest isDir onward ih =>
    cases before with
    | nil =>
      obtain rfl : after = _ := hsteps
      exact ⟨0, _, _, (Nat.zero_add _).symm, .nil, .directory isDir onward⟩
    | cons st before =>
      obtain ⟨rfl, hrest⟩ := List.cons.inj hsteps
      obtain ⟨i, j, m, hk, r₁, r₂⟩ := ih hrest
      exact ⟨i, j, m, hk, .directory isDir r₁, r₂⟩
  | @link k cur l n target rest isLink onward ih =>
    cases before with
    | nil =>
      obtain rfl : after = _ := hsteps
      exact ⟨0, _, _, (Nat.zero_add _).symm, .nil, .link isLink onward⟩
    | cons st before =>
      obtain ⟨rfl, hrest⟩ := List.cons.inj hsteps
      have hall : target.steps ++ before ++ after = target.steps ++ rest := by
        rw [← hrest, List.append_assoc]
        rfl
      obtain ⟨i, j, m, hk, r₁, r₂⟩ := ih hall
      exact ⟨i + 1, j, m, by omega, .link isLink r₁, r₂⟩

/-- There is only one way along given steps. -/
theorem Route.unique {j : Nat} {m : Location} (r : d.Route k cur steps l) (r' : d.Route j cur steps m) :
    k = j ∧ l = m := by
  induction r generalizing j with
  | nil => cases r'; exact ⟨rfl, rfl⟩
  | here _ ih => cases r' with | here onward => exact ih onward
  | up _ ih => cases r' with | up onward => exact ih onward
  | directory isDir _ ih =>
    cases r' with
    | directory _ onward => exact ih onward
    | link isLink => cases isDir.symm.trans isLink
  | link isLink _ ih =>
    cases r' with
    | directory isDir => cases isDir.symm.trans isLink
    | link isLink' onward =>
      cases isLink.symm.trans isLink'
      exact (ih onward).imp_left (congrArg Nat.succ)

/-- A way that goes on from the end of another one by a name passes through an entry of that name. -/
theorem Route.node?_ne_none {j : Nat} {before rest : List Step} (r : d.Route k cur before dir)
    (onward : d.Route j cur (before ++ .name n :: rest) l) : d.node? (dir ++ [n]) ≠ none := by
  obtain ⟨_, _, m, -, r₁, r₂⟩ := onward.split
  obtain ⟨-, rfl⟩ := r₁.unique r
  cases r₂ with
  | directory isDir => exact node?_ne_none_of_eq isDir
  | link isLink => exact node?_ne_none_of_eq isLink

/-- A walk that follows no link at its end comes out the same where there is less, or fails for want
of an entry. -/
theorem proceed_keep_fewer (fewer : ∀ l, d'.node? l = d.node? l ∨ d'.node? l = none) :
    d'.proceed .keep links slash cur e steps = d.proceed .keep links slash cur e steps ∨
      d'.proceed .keep links slash cur e steps = .error Errno.noEntry := by
  induction links using Nat.strongRecOn generalizing slash cur e steps with
  | _ links ihl =>
  induction steps generalizing cur e with
  | nil => exact .inl rfl
  | cons st rest ih =>
    cases st with
    | here => exact ih
    | up => exact ih
    | name m =>
      rw [proceed_name, proceed_name]
      by_cases hrest : rest = []
      · rw [if_pos ⟨hrest, rfl⟩, if_pos ⟨hrest, rfl⟩]
        exact .inl rfl
      · have hend : ¬ (rest = [] ∧ LastLink.keep.follows slash = false) := fun h => hrest h.1
        rw [if_neg hend, if_neg hend]
        by_cases hlong : isTooLong m = true
        · rw [if_pos hlong, if_pos hlong]
          exact .inl rfl
        · rw [if_neg hlong, if_neg hlong]
          obtain hsame | hgone := fewer (cur ++ [m])
          · rw [hsame]
            cases d.node? (cur ++ [m]) with
            | none => exact .inl rfl
            | some node =>
              cases node with
              | directory =>
                simp only [if_neg hrest]
                exact ih
              | file => exact .inl rfl
              | symlink target =>
                cases links with
                | zero => exact .inl rfl
                | succ links => exact ihl links (Nat.lt_succ_self _)
          · rw [hgone]
            exact .inr (if_neg hrest)

theorem target_keep_fewer (fewer : ∀ l, d'.node? l = d.node? l ∨ d'.node? l = none)
    (working : d'.workingDirectory = d.workingDirectory) {target : Target}
    (h : d.target .keep p = .ok target) :
    d'.target .keep p = .ok target ∨ d'.target .keep p = .error (.os Errno.noEntry) := by
  obtain ⟨hvalid, hproceed⟩ := of_target_eq_ok h
  have hcases : d'.proceed .keep linkLimit p.endsInSlash (p.startFrom d.workingDirectory) .root
      p.steps = _ ∨ _ := proceed_keep_fewer fewer
  rw [target_of_isValid hvalid, working]
  obtain hsame | hgone := hcases
  · rw [hsame, hproceed]
    exact .inl rfl
  · rw [hgone]
    exact .inr rfl

/-- Where a path leads that ends in a name: the name is that of the directory it names, or of a
link. -/
theorem Names.lastStep (t : d.IsTree) (h : d.Names p l) {before : List Step}
    (hsteps : p.steps = before ++ [.name n]) :
    ∃ dir, d.target .keep p = .ok (.name dir n p.endsInSlash) ∧
      (dir ++ [n] = l ∨ ∃ target, d.node? (dir ++ [n]) = some (.symlink target)) := by
  obtain ⟨hvalid, k, hk, r⟩ := h
  rw [hsteps] at r
  obtain ⟨i, j, dir, hij, r₁, r₂⟩ := r.split
  obtain ⟨more, hmore⟩ := Nat.exists_eq_add_of_le (show i ≤ linkLimit by omega)
  refine ⟨dir, ?_, ?_⟩
  · rw [target_of_isValid hvalid, hsteps, hmore, r₁.proceed t (f := .here) (List.cons_ne_nil _ _),
      proceed_name, if_pos ⟨rfl, rfl⟩]
    rfl
  · cases r₂ with
    | directory isDir onward => cases onward; exact .inl rfl
    | link isLink onward => exact .inr ⟨_, isLink⟩

theorem get?_of_lookAt {e : Entry} (h : d.lookAt p = .ok (l, e)) : d.get? l = some e := by
  obtain ⟨-, -, -, hget⟩ := of_find h
  exact hget

/-- What is left of a directory that is emptied. -/
theorem isDir_clear (now : Time) (isDir : d.IsDir l) :
    (d.clear now l).IsDir l ∧ (d.clear now l).names l = [] := by
  unfold clear
  split
  · next hempty => exact ⟨isDir, List.isEmpty_iff.1 hempty⟩
  · refine ⟨?_, ?_⟩
    · rw [IsDir, node?_touch, node?_eraseBelow, if_neg fun h => h.2 rfl]
      exact isDir
    · rw [names_eq_nil_iff]
      intro n
      rw [node?_touch, node?_eraseBelow, if_pos ⟨List.prefix_append _ _, by simp⟩]

theorem lookAt_of_free (htarget : d.target .keep p = .ok (.name dir n slash))
    (hslash : p.endsInSlash = false) (hshort : isTooLong n = false)
    (free : d.get? (dir ++ [n]) = none) : d.lookAt p = .error (.os Errno.noEntry) := by
  unfold lookAt find
  rw [hslash, Bool.or_self, if_neg Bool.false_ne_true, htarget]
  simp only [bind, Except.bind, child?_of_short hshort, free, Except.mapError]
  rfl

/-- Nothing is found where only the directories above can be missing. -/
theorem lookAt_of_makeDirectory {mode : Mode} (hslash : p.endsInSlash = false)
    (h : ∀ fault, d.makeDirectory now p mode = .error fault → fault = .os Errno.noEntry) :
    d.lookAt p = .error (.os Errno.noEntry) := by
  unfold makeDirectory at h
  cases htarget : d.target .keep p with
  | error fault =>
    rw [htarget] at h
    obtain rfl := h fault rfl
    unfold lookAt find
    rw [hslash, Bool.or_self, if_neg Bool.false_ne_true, htarget]
    rfl
  | ok target =>
    rw [htarget] at h
    cases target with
    | directory l e => cases h _ rfl
    | name dir n slash =>
      simp only [bind, Except.bind] at h
      cases hchild : d.child? dir n with
      | error errno =>
        rw [hchild] at h
        unfold child? at hchild
        split at hchild
        · cases hchild; cases h _ rfl
        · cases hchild
      | ok found =>
        obtain ⟨hshort, hget⟩ := of_child?_eq_ok hchild
        rw [hchild] at h
        cases found with
        | some e => cases h _ rfl
        | none => exact lookAt_of_free htarget hslash hshort hget

/-- Nothing is found where the way to it is lost. -/
theorem lookAt_of_lost (hslash : p.endsInSlash = false)
    (hlost : d.target .keep p = .error (.os Errno.noEntry)) :
    d.lookAt p = .error (.os Errno.noEntry) := by
  unfold lookAt find
  rw [hslash, if_neg (by simp), hlost]
  rfl

section

variable (htarget : d.target .keep p = .ok (.name dir n false)) (hslash : p.endsInSlash = false)
  (hshort : isTooLong n = false)
include htarget hslash hshort

theorem lookAt_of_target {entry : Entry} (hget : d.get? (dir ++ [n]) = some entry) :
    d.lookAt p = .ok (dir ++ [n], entry) := by
  refine find_eq_ok_iff.2 ⟨.name dir n false, ?_, rfl, hget, ?_⟩
  · rw [hslash, Bool.or_self, if_neg Bool.false_ne_true, htarget]
  · rintro _ _ _ ⟨⟩
    exact ⟨hshort, nofun⟩

/-- Nothing is found where an entry was removed. -/
theorem lookAt_removeEntry : (d.removeEntry now dir n).lookAt p = .error (.os Errno.noEntry) := by
  have fewer : ∀ l, (d.removeEntry now dir n).node? l = d.node? l ∨
      (d.removeEntry now dir n).node? l = none := by
    intro l
    rw [node?_removeEntry]
    split
    · exact .inr rfl
    · exact .inl rfl
  obtain hsame | hgone := target_keep_fewer fewer rfl htarget
  · refine lookAt_of_free hsame hslash hshort ?_
    rw [get?_removeEntry, if_pos rfl]
  · exact lookAt_of_lost hslash hgone

end

/-- If a path names a directory, so does its parent. -/
theorem isDirectory_parent {q : Path} (h : d.IsSound p) (hq : p.parent? = some q)
    (nonempty : q.text.isEmpty = false) (there : d.isDirectory p = true) :
    d.isDirectory q = true := by
  obtain ⟨l, ⟨hvalid, k, hk, route⟩, -⟩ := (isDirectory_iff h.toIsTree).1 there
  have hstart : q.startFrom d.workingDirectory = p.startFrom d.workingDirectory := by
    rw [Path.startFrom, Path.isAbsolute_parent hq, Path.startFrom]
  obtain ⟨before, st, after, hsteps, -⟩ := Path.steps_parent hq
  rw [hsteps, List.append_assoc] at route
  obtain ⟨i, j, m, rfl, hfirst, -⟩ := route.split
  obtain ⟨rest, htext⟩ := Path.text_parent hq
  have valid : q.IsValid := by
    refine ⟨?_, nonempty, ?_⟩
    · have hnul := hvalid.noNul
      rw [Path.hasNul, ← htext] at hnul
      rw [Path.hasNul]
      simp only [List.contains_eq_mem, List.mem_append, decide_eq_false_iff_not, not_or] at hnul ⊢
      exact hnul.1
    · have hshort := hvalid.short
      rw [← htext, Text.byteLength_append] at hshort
      omega
  refine (isDirectory_iff h.toIsTree).2 ⟨m, ⟨valid, i, by omega, ?_⟩, hfirst.isDir_end h.toIsTree h.start⟩
  rw [hstart]
  exact hfirst

end Disk

namespace Tree

variable {p : Path} {mode : Mode} {w : World} {l : Location} {n : Name} {before : List Step}
  {e : IoError}

theorem remove_of_free (free : w.disk.lookAt p = .error (.os Errno.noEntry)) :
    (remove p).run w = (.ok (), w) := by
  unfold remove
  rw [Action.run_bind, Action.run_attempt, Action.run_ask, free]
  rfl

/-- A directory is removed with all that is in it, if the way to it is not lost with that. -/
theorem remove_directory {dir : Location} {slash : Bool} (isDir : w.disk.IsDir (dir ++ [n]))
    (short : isTooLong n = false) {e : Entry} (look : w.disk.lookAt p = .ok (dir ++ [n], e))
    (target : (w.disk.clear (Action.time w) (dir ++ [n])).target .keep p =
      .ok (.name dir n slash)) :
    (remove p).run w = (.ok (), { Action.tick (Action.tick w) with
      disk := (w.disk.clear (Action.time w) (dir ++ [n])).removeEntry (Action.time (Action.tick w))
        dir n }) := by
  have hdir : e.node = .directory := by
    rw [Disk.IsDir, Disk.node?_of_get? (Disk.get?_of_lookAt look)] at isDir
    exact Option.some.inj isDir
  obtain ⟨hthere, hempty⟩ := Disk.isDir_clear (Action.time w) isDir
  obtain ⟨e', he', hdir'⟩ := Disk.isDir_iff.1 hthere
  have hremove : (w.disk.clear (Action.time w) (dir ++ [n])).removeDirectory
      (Action.time (Action.tick w)) p =
      .ok ((w.disk.clear (Action.time w) (dir ++ [n])).removeEntry (Action.time (Action.tick w))
        dir n) := by
    have hchild : (w.disk.clear (Action.time w) (dir ++ [n])).child? dir n = .ok (some e') := by
      rw [Disk.child?_of_short short, he']
    have hkind : e'.node.kind = .directory := by rw [hdir']; rfl
    unfold Disk.removeDirectory
    simp only [target, bind, Except.bind, hchild, Except.mapError, hkind, ne_eq, not_true_eq_false,
      if_false, hempty, List.isEmpty_nil, if_true]
    rfl
  unfold remove
  rw [Action.run_bind, Action.run_attempt, Action.run_ask, look]
  simp only [hdir]
  unfold removeDirectory
  rw [Action.run_bind, Action.run_change]
  simp only
  rw [Action.run_bind, Action.run_attempt, Action.run_change_ok
    (w := { Action.tick w with disk := w.disk.clear (Action.time w) (dir ++ [n]) }) hremove]
  rfl

/-- An empty directory is removed, or the link that leads to it. -/
theorem remove_named (tree : w.disk.IsTree) (names : w.disk.Names p l) (isDir : w.disk.IsDir l)
    (empty : w.disk.names l = []) (steps : p.steps = before ++ [.name n])
    (slash : p.endsInSlash = false) :
    ∃ w', (remove p).run w = (.ok (), w') ∧ w'.disk.lookAt p = .error (.os Errno.noEntry) := by
  obtain ⟨dir, htarget, hend⟩ := names.lastStep tree steps
  rw [slash] at htarget
  have hthere : w.disk.node? (dir ++ [n]) ≠ none := by
    obtain rfl | ⟨target, hlink⟩ := hend
    · exact Disk.node?_ne_none_of_eq isDir
    · exact Disk.node?_ne_none_of_eq hlink
  have hshort := (tree.named hthere).short
  obtain ⟨e, he⟩ := Option.ne_none_iff_exists'.1 fun hnone => hthere (Disk.node?_eq_none_iff.2 hnone)
  have hlook := Disk.lookAt_of_target htarget slash hshort he
  have hgone : ∀ t, (w.disk.removeEntry t dir n).lookAt p = .error (.os Errno.noEntry) :=
    fun t => Disk.lookAt_removeEntry htarget slash hshort
  obtain rfl | ⟨target, hlink⟩ := hend
  · have hclear : w.disk.clear (Action.time w) (dir ++ [n]) = w.disk := by
      rw [Disk.clear, empty]
      rfl
    refine ⟨_, remove_directory isDir hshort hlook (by rw [hclear]; exact htarget), ?_⟩
    rw [hclear]
    exact hgone _
  · have hchild : w.disk.child? dir n = .ok (some e) := by
      rw [Disk.child?_of_short hshort, he]
    rw [Disk.node?_of_get? he] at hlink
    have hlink := Option.some.inj hlink
    have hremove : w.disk.removeFile (Action.time w) p =
        .ok (w.disk.removeEntry (Action.time w) dir n) := by
      unfold Disk.removeFile
      simp only [htarget, bind, Except.bind, hchild, Except.mapError, hlink]
      rfl
    unfold remove
    rw [Action.run_bind, Action.run_attempt, Action.run_ask, hlook]
    simp only [hlink]
    rw [Action.run_change_ok hremove]
    exact ⟨_, rfl, hgone _⟩

/-- Where directories can be made along a path that ends in a name, the directory is there before,
or nothing. -/
theorem there_or_free_of_makeDirectories (hne : p.text.isEmpty = false)
    (slash : p.endsInSlash = false)
    (hok : ((makeDirectories p mode).run w).1 = .ok ()) :
    w.disk.isDirectory p = true ∨ w.disk.lookAt p = .error (.os Errno.noEntry) := by
  obtain ⟨above, habove⟩ := p.ancestors_eq
  unfold makeDirectories at hok
  rw [habove, makeDirectoriesAlong, hne, if_neg Bool.false_ne_true, Action.run_bind,
    Action.run_attempt, Action.run_change] at hok
  by_cases hnoEntry : ∀ fault, w.disk.makeDirectory (Action.time w) p mode = .error fault →
      fault = .os Errno.noEntry
  · exact .inr (Disk.lookAt_of_makeDirectory slash hnoEntry)
  · -- any other failure counts, unless the directory is there
    obtain ⟨fault, hfault⟩ := not_forall.1 hnoEntry
    obtain ⟨hmake, hne⟩ := Classical.not_imp.1 hfault
    rw [hmake] at hok
    simp only at hok
    rw [if_neg hne, run_settle] at hok
    simp only at hok
    split at hok
    · next hdir => exact .inl hdir
    · cases hok

/-- A refused attempt to make a directory leaves it missing if what follows does. -/
theorem not_isDirectory_of_attempt {onError : IoError → Action IoError Unit}
    (herror : ∀ fault, ((onError fault).run (Action.tick w)).1 = .error e →
      ((onError fault).run (Action.tick w)).2.disk.isDirectory p = false)
    (fails : ((do
      match ← (Action.change fun t d => d.makeDirectory t p mode).attempt with
      | .ok () => return
      | .error fault => onError fault : Action IoError Unit).run w).1 = .error e) :
    ((do
      match ← (Action.change fun t d => d.makeDirectory t p mode).attempt with
      | .ok () => return
      | .error fault => onError fault : Action IoError Unit).run w).2.disk.isDirectory p = false := by
  rw [Action.run_bind, Action.run_attempt, Action.run_change] at fails ⊢
  cases hmake : w.disk.makeDirectory (Action.time w) p mode with
  | ok d =>
    rw [hmake] at fails
    cases fails
  | error fault =>
    rw [hmake] at fails
    exact herror fault fails

theorem not_isDirectory_of_settle {fault : IoError}
    (fails : ((makeDirectoriesAlong.settle p fault).run w).1 = .error e) :
    ((makeDirectoriesAlong.settle p fault).run w).2.disk.isDirectory p = false := by
  rw [run_settle] at fails ⊢
  simp only at fails ⊢
  split at fails
  · cases fails
  · next hdir => exact Bool.eq_false_iff.2 hdir

/-- If the directories above could be made, or failed to be made because this one is missing too. -/
theorem not_isDirectory_of_above {above : List Path}
    (habove : ((makeDirectoriesAlong mode above).run (Action.tick w)).1 = .error e →
      ((makeDirectoriesAlong mode above).run (Action.tick w)).2.disk.isDirectory p = false)
    (fails : ((makeDirectoriesAlong mode (p :: above)).run w).1 = .error e) :
    p.text.isEmpty = false ∧
      ((makeDirectoriesAlong mode (p :: above)).run w).2.disk.isDirectory p = false := by
  rw [makeDirectoriesAlong] at fails ⊢
  by_cases hempty : p.text.isEmpty = true
  · rw [if_pos hempty] at fails
    cases fails
  rw [if_neg hempty] at fails ⊢
  refine ⟨Bool.eq_false_iff.2 hempty, not_isDirectory_of_attempt (fun fault hfails => ?_) fails⟩
  by_cases hfault : fault = .os Errno.noEntry
  · rw [if_pos hfault, Action.run_bind] at hfails ⊢
    generalize (makeDirectoriesAlong mode above).run (Action.tick w) = x at habove hfails ⊢
    obtain ⟨x, w₁⟩ := x
    cases x with
    | error e' => exact habove hfails
    | ok u => exact not_isDirectory_of_attempt (fun _ => not_isDirectory_of_settle) hfails
  · rw [if_neg hfault] at hfails ⊢
    exact not_isDirectory_of_settle hfails

/-- A directory that could not be made with those above it is not there. -/
theorem not_isDirectory_of_makeDirectories (h : w.disk.IsSound p)
    (fails : ((makeDirectories p mode).run w).1 = .error e) :
    ((makeDirectories p mode).run w).2.disk.isDirectory p = false := by
  have hup : ∀ (n : Nat) (p : Path) (w : World), w.disk.IsSound p →
      ((makeDirectoriesAlong mode (p.ancestorsUpTo n)).run w).1 = .error e →
      p.text.isEmpty = false ∧
      ((makeDirectoriesAlong mode (p.ancestorsUpTo n)).run w).2.disk.isDirectory p = false := by
    intro n
    induction n with
    | zero => exact fun p w _ => not_isDirectory_of_above fun hfails => by cases hfails
    | succ n ih =>
      intro p w hsound
      refine not_isDirectory_of_above fun hfails => ?_
      cases hparent : p.parent? with
      | none =>
        rw [hparent] at hfails
        cases hfails
      | some q =>
        rw [hparent] at hfails
        -- what is in a directory is not there if the directory is not
        have habs : q.isAbsolute = p.isAbsolute := Path.isAbsolute_parent hparent
        obtain ⟨hne, hmissing⟩ := ih q (Action.tick w) (hsound.of_isAbsolute_eq habs) hfails
        have htick : OnlyDisk p w (Action.tick w) := ⟨hsound, rfl, rfl, rfl, Nat.le_succ _, rfl⟩
        have honly : OnlyDisk p w ((makeDirectoriesAlong mode (q.ancestorsUpTo n)).run
            (Action.tick w)).2 :=
          onlyDisk_makeDirectoriesAlong htick mode
            fun q' hq' => (Path.of_mem_ancestorsUpTo hq').1.trans habs
        rw [Bool.eq_false_iff]
        intro there
        rw [Disk.isDirectory_parent honly.sound hparent hne there] at hmissing
        cases hmissing
  exact (hup _ p w h fails).2

end Tree

end TwinTrees
