import TwinTrees.Proofs.Disk.Files
import TwinTrees.Proofs.Disk.Removal

/-!
# What a removal takes away

When the entry that a path names is removed, all that goes is at or below the entry, and if the entry
is a link, it goes alone: `Disk.Prunes`. This holds on every disk and for every path that ends in a
name (`Tree.remove_at`). If the path is that of a name in a directory which another path leads to,
the entry is the one in that directory (`Disk.FoundAt.target_join`); and the path itself names that
directory or a link (`Disk.FoundAt.lastStep`).
-/

namespace TwinTrees

namespace Disk

variable {d d' : Disk} {last : LastLink} {links : Nat} {slash : Bool} {cur dir l place : Location}
  {e : Ending} {n : Name} {steps before : List Step} {p : Path} {target : Target} {now : Time}

/-! ## Walks that go on -/

/-- A walk that comes to a directory goes on from there if there are more steps. -/
theorem Walks.onward (h : d.Walks .follow links slash cur e steps target)
    (isDir : d.IsDir target.location) :
    ∃ left, ∀ last slash' f rest, rest ≠ [] →
      d.proceed last links slash' cur e (steps ++ rest) =
        d.proceed last left slash' target.location f rest := by
  have hmore : ∀ {more rest : List Step}, rest ≠ [] → more ++ rest ≠ [] :=
    fun hrest hnil => hrest (List.append_eq_nil_iff.1 hnil).2
  induction h with
  | @done links => exact ⟨links, fun last slash' f rest hrest => proceed_ending hrest⟩
  | here _ ih => exact ih isDir
  | up _ ih => exact ih isDir
  | stop keeps => exact absurd keeps not_stops_follow
  | @name links _ _ _ _ short =>
    refine ⟨links, fun last slash' f rest hrest => ?_⟩
    rw [List.singleton_append, proceed_name_directory hrest short isDir]
    exact proceed_ending hrest
  | directory _ short hdir _ ih =>
    obtain ⟨left, hleft⟩ := ih isDir
    refine ⟨left, fun last slash' f rest hrest => ?_⟩
    rw [List.cons_append, proceed_name_directory (hmore hrest) short hdir,
      hleft last slash' f rest hrest]
  | link _ short isLink _ ih =>
    obtain ⟨left, hleft⟩ := ih isDir
    refine ⟨left, fun last slash' f rest hrest => ?_⟩
    rw [List.cons_append, proceed_name_link (hmore hrest) short isLink, ← List.append_assoc,
      hleft last slash' f rest hrest]

/-- Where a walk ends that comes to a directory: the last name is that of the directory, or of a
link, and a walk that follows no link at its end stops before it. -/
theorem Walks.stops (h : d.Walks .follow links slash cur e steps target)
    (isDir : d.IsDir target.location) (hsteps : steps = before ++ [.name n]) :
    isTooLong n = false ∧ ∃ dir,
      (∀ slash', d.Walks .keep links slash' cur e steps (.name dir n slash')) ∧
      (dir ++ [n] = target.location ∨ d.kind? (dir ++ [n]) = some .symlink) := by
  induction h generalizing before with
  | done => exact absurd hsteps.symm (List.append_ne_nil_of_right_ne_nil _ (List.cons_ne_nil _ _))
  | here _ ih =>
    obtain ⟨-, hlast⟩ | ⟨before', -, hrest⟩ := List.cons_eq_append_iff.1 hsteps
    · cases hlast
    · obtain ⟨short, dir, hkeep, hplace⟩ := ih isDir hrest
      exact ⟨short, dir, fun slash' => .here (hkeep slash'), hplace⟩
  | up _ ih =>
    obtain ⟨-, hlast⟩ | ⟨before', -, hrest⟩ := List.cons_eq_append_iff.1 hsteps
    · cases hlast
    · obtain ⟨short, dir, hkeep, hplace⟩ := ih isDir hrest
      exact ⟨short, dir, fun slash' => .up (hkeep slash'), hplace⟩
  | stop keeps => exact absurd keeps not_stops_follow
  | @name _ _ cur _ m short =>
    obtain ⟨-, hlast⟩ | ⟨before', -, hrest⟩ := List.cons_eq_append_iff.1 hsteps
    · cases hlast
      exact ⟨short, cur, fun _ => .stop rfl, .inl rfl⟩
    · exact absurd hrest.symm (List.append_ne_nil_of_right_ne_nil _ (List.cons_ne_nil _ _))
  | directory hrest short hdir _ ih =>
    obtain ⟨-, hlast⟩ | ⟨before', -, htail⟩ := List.cons_eq_append_iff.1 hsteps
    · cases hlast
      exact absurd rfl hrest
    · obtain ⟨hn, dir, hkeep, hplace⟩ := ih isDir htail
      exact ⟨hn, dir, fun slash' => .directory hrest short hdir (hkeep slash'), hplace⟩
  | @link _ _ cur _ m rest _ old _ short isLink _ ih =>
    obtain ⟨-, hlast⟩ | ⟨before', -, htail⟩ := List.cons_eq_append_iff.1 hsteps
    · cases hlast
      exact ⟨short, cur, fun _ => .stop rfl, .inr (kind?_eq_symlink_iff.2 ⟨old, isLink⟩)⟩
    · have hrest : rest ≠ [] := htail ▸ List.append_ne_nil_of_right_ne_nil _ (List.cons_ne_nil _ _)
      have honward : old.steps ++ rest = (old.steps ++ before') ++ [.name n] := by
        rw [htail, List.append_assoc]
      obtain ⟨hn, dir, hkeep, hplace⟩ := ih isDir honward
      refine ⟨hn, dir, fun slash' => .link (absurd · hrest) short isLink ?_, hplace⟩
      have hslash : (slash' || (rest.isEmpty && old.endsInSlash)) = slash' := by simp [hrest]
      rw [hslash]
      exact hkeep slash'

/-- A walk sees nothing of what is written to a file. -/
theorem proceed_store {f : OpenFile} {bytes : Bytes} :
    (d.store now f bytes).proceed last links slash cur e steps =
      d.proceed last links slash cur e steps := by
  refine proceed_congr fun l => ?_
  have hkind : (d.store now f bytes).kind? l = d.kind? l := kind?_store
  cases hnode : d.node? l with
  | none =>
    rw [kind?_eq_none_iff.2 hnode] at hkind
    exact .inl (kind?_eq_none_iff.1 hkind)
  | some node =>
    cases node with
    | directory => exact .inl (node?_store_of_some hnode nofun)
    | symlink old => exact .inl (node?_store_of_some hnode nofun)
    | file id old =>
      rw [kind?, kind?, hnode, Option.map_some, Option.map_eq_some_iff] at hkind
      obtain ⟨node, hstored, hfile⟩ := hkind
      cases node with
      | file id' new => exact .inr ⟨⟨id', new, hstored⟩, id, old, rfl⟩
      | directory => cases hfile
      | symlink => cases hfile

theorem target_store {f : OpenFile} {bytes : Bytes} :
    (d.store now f bytes).target last p = d.target last p := by
  rw [target_eq, target_eq, proceed_store]
  rfl

/-- The path leads to the directory at a location. -/
def FoundAt (d : Disk) (p : Path) (l : Location) : Prop :=
  ∃ target, d.target .follow p = .ok target ∧ target.location = l ∧ d.IsDir l

theorem Names.foundAt (tree : d.IsTree) (h : d.Names p l) (isDir : d.IsDir l) : d.FoundAt p l := by
  obtain ⟨valid, k, few, route⟩ := h
  obtain ⟨target, hwalks, hlocation⟩ : ∃ target, d.Walks .follow linkLimit p.endsInSlash
      (p.startFrom d.workingDirectory) .root p.steps target ∧ target.location = l :=
    route.walks_follow tree few
  refine ⟨target, ?_, hlocation, isDir⟩
  rw [target_of_isValid valid, hwalks.proceed]
  rfl

/-- A path that another one goes on from leads to a directory if that one leads anywhere. -/
theorem Names.of_join {q : Path} (h : d.Names (p.join q) l) (sound : d.IsSound p)
    (relative : q.isAbsolute = false) (nonempty : p.text.isEmpty = false) :
    ∃ home, d.Names p home ∧ d.IsDir home := by
  obtain ⟨valid, k, few, route⟩ := h
  rw [Path.steps_join relative, Path.startFrom_join relative] at route
  obtain ⟨i, j, home, hk, route, -⟩ := route.split
  exact ⟨home, ⟨valid.of_join relative nonempty, i, by omega, route⟩,
    route.isDir_end sound.toIsTree sound.start⟩

namespace FoundAt

theorem unique {m : Location} (h : d.FoundAt p l) (h' : d.FoundAt p m) : l = m := by
  obtain ⟨target, htarget, rfl, -⟩ := h
  obtain ⟨target', htarget', rfl, -⟩ := h'
  rw [htarget] at htarget'
  cases htarget'
  rfl

/-- The path of a name in a directory leads to that name in the directory. -/
theorem target_join (h : d.FoundAt p l) {name : String} (isName : IsName name.toList)
    (valid : (p.join ⟨name⟩).IsValid) :
    d.target .keep (p.join ⟨name⟩) = .ok (.name l name.toList false) := by
  obtain ⟨target, htarget, rfl, isDir⟩ := h
  obtain ⟨-, hproceed⟩ := of_target_eq_ok htarget
  obtain ⟨left, hleft⟩ := (walks_of_proceed hproceed).onward isDir
  have hstart : (p.join ⟨name⟩).startFrom d.workingDirectory = p.startFrom d.workingDirectory :=
    Path.startFrom_join (Path.isAbsolute_of_isName isName) _
  rw [target_of_isValid valid, Path.endsInSlash_join isName, hstart, Path.steps_join_name isName,
    hleft .keep false .root _ (List.cons_ne_nil _ _), proceed_name, if_pos ⟨rfl, rfl⟩]
  rfl

/-- The path of a directory that ends in a name is that of the directory or of a link. -/
theorem lastStep (h : d.FoundAt p l) (steps : p.steps = before ++ [.name n])
    (slash : p.endsInSlash = false) :
    isTooLong n = false ∧ ∃ dir, d.target .keep p = .ok (.name dir n false) ∧
      (dir ++ [n] = l ∨ d.kind? (dir ++ [n]) = some .symlink) := by
  obtain ⟨target, htarget, rfl, isDir⟩ := h
  obtain ⟨valid, hproceed⟩ := of_target_eq_ok htarget
  obtain ⟨short, dir, hkeep, hdir⟩ := (walks_of_proceed hproceed).stops isDir steps
  refine ⟨short, dir, ?_, hdir⟩
  rw [target_of_isValid valid, (hkeep _).proceed, slash]
  rfl

/-- Writing to a file moves no directory. -/
theorem store (h : d.FoundAt p l) (f : OpenFile) (bytes : Bytes) :
    (d.store now f bytes).FoundAt p l := by
  obtain ⟨target, htarget, hlocation, isDir⟩ := h
  exact ⟨target, target_store.trans htarget, hlocation, isDir.store⟩

end FoundAt

/-! ## Less of a disk -/

/-- All that is gone is at or below a place. If that is a directory, nothing is left in it, and else
nothing is gone but a link at the place itself. -/
structure Prunes (place : Location) (d d' : Disk) : Prop where
  gone : ∀ l, d'.kind? l = d.kind? l ∨ d'.kind? l = none ∧ place <+: l
  emptied : d.kind? place = some .directory → ∀ n, d'.kind? (place ++ [n]) = none
  alone : d.kind? place ≠ some .directory →
    ∀ l, d'.kind? l ≠ d.kind? l → l = place ∧ d.kind? place = some .symlink

theorem Prunes.refl (noDir : d.kind? place ≠ some .directory) : Prunes place d d where
  gone _ := .inl rfl
  emptied isDir := absurd isDir noDir
  alone _ _ h := absurd rfl h

/-- Only the kinds of entries count. -/
theorem Prunes.of_kinds {d₁ : Disk} (h : Prunes place d₁ d') (kinds : ∀ l, d₁.kind? l = d.kind? l) :
    Prunes place d d' where
  gone l := by
    rw [← kinds l]
    exact h.gone l
  emptied := by
    rw [← kinds place]
    exact h.emptied
  alone := by
    rw [← kinds place]
    exact fun hne l hl => h.alone hne l fun heq => hl (heq.trans (kinds l))

theorem Prunes.ofDir (isDir : d.IsDir place)
    (h : ∀ l, d'.node? l = d.node? l ∨ d'.node? l = none ∧ place <+: l)
    (empty : ∀ n, d'.node? (place ++ [n]) = none) : Prunes place d d' where
  gone l := by
    obtain hsame | ⟨hgone, hbelow⟩ := h l
    · exact .inl (by rw [kind?, hsame, kind?])
    · exact .inr ⟨kind?_eq_none_iff.2 hgone, hbelow⟩
  emptied _ n := kind?_eq_none_iff.2 (empty n)
  alone hne := absurd (kind?_eq_directory_iff.2 isDir) hne

theorem kind?_removeEntry :
    (d.removeEntry now dir n).kind? l = if l = dir ++ [n] then none else d.kind? l := by
  rw [kind?, node?_removeEntry]
  split
  · rfl
  · rfl

theorem Prunes.removeLink (link : d.kind? (dir ++ [n]) = some .symlink) :
    Prunes (dir ++ [n]) d (d.removeEntry now dir n) where
  gone l := by
    rw [kind?_removeEntry]
    split
    · next hl => exact .inr ⟨rfl, hl ▸ List.prefix_rfl⟩
    · exact .inl rfl
  emptied isDir := by
    rw [link] at isDir
    cases isDir
  alone _ l hl := by
    rw [kind?_removeEntry] at hl
    split at hl
    · next heq => exact ⟨heq, link⟩
    · exact absurd rfl hl

theorem node?_clear (now : Time) (l m : Location) : (d.clear now l).node? m = d.node? m ∨
    (d.clear now l).node? m = none ∧ l <+: m := by
  unfold clear
  split
  · exact .inl rfl
  · rw [node?_touch, node?_eraseBelow]
    split
    · next h => exact .inr ⟨rfl, h.1⟩
    · exact .inl rfl

theorem workingDirectory_clear (now : Time) (l : Location) :
    (d.clear now l).workingDirectory = d.workingDirectory := by
  unfold clear
  split <;> rfl

end Disk

namespace Tree

open Disk (Prunes)

section Entry

variable {p : Path} {w : World} {dir : Location} {n : Name} {e : Entry}
  (htarget : w.disk.target .keep p = .ok (.name dir n false)) (slash : p.endsInSlash = false)
  (short : isTooLong n = false) (hget : w.disk.get? (dir ++ [n]) = some e)
include htarget slash short hget

/-- A file stays. -/
theorem remove_file_at {id : Nat} {bytes : Bytes} (hnode : e.node = .file id bytes) :
    (remove p).run w = (.error (.os Errno.notDirectory), w) := by
  unfold remove
  rw [Action.run_bind, Action.run_attempt, Action.run_ask,
    Disk.lookAt_of_target htarget slash short hget]
  simp only [hnode]
  rfl

/-- A link goes alone. -/
theorem remove_link_at {old : Path} (hnode : e.node = .symlink old) :
    ∃ w', (remove p).run w = (.ok (), w') ∧ Prunes (dir ++ [n]) w.disk w'.disk ∧
      w'.disk.lookAt p = .error (.os Errno.noEntry) := by
  have hchild : w.disk.child? dir n = .ok (some e) := by
    rw [Disk.child?_of_short short, hget]
  have hremove : w.disk.removeFile (Action.time w) p =
      .ok (w.disk.removeEntry (Action.time w) dir n) := by
    unfold Disk.removeFile
    simp only [htarget, bind, Except.bind, hchild, Except.mapError, hnode]
    rfl
  have hlink : w.disk.kind? (dir ++ [n]) = some .symlink := by
    rw [Disk.kind?_of_get? hget, hnode]
    rfl
  refine ⟨{ Action.tick w with disk := w.disk.removeEntry (Action.time w) dir n }, ?_,
    .removeLink hlink, Disk.lookAt_removeEntry htarget slash short⟩
  unfold remove
  rw [Action.run_bind, Action.run_attempt, Action.run_ask,
    Disk.lookAt_of_target htarget slash short hget]
  simp only [hnode]
  exact Action.run_change_ok hremove

/-- A directory goes with what is in it. If its path leads by itself, so that it is lost on the way,
the directory stays empty. -/
theorem remove_directory_at (hnode : e.node = .directory) :
    ∃ w', (remove p).run w = (.ok (), w') ∧ Prunes (dir ++ [n]) w.disk w'.disk ∧
      w'.disk.lookAt p = .error (.os Errno.noEntry) := by
  have hlook := Disk.lookAt_of_target htarget slash short hget
  have isDir : w.disk.IsDir (dir ++ [n]) := Disk.isDir_of_get? hget hnode
  have hclear := Disk.node?_clear (d := w.disk) (Action.time w) (dir ++ [n])
  have hempty := Disk.names_eq_nil_iff.1 (Disk.isDir_clear (Action.time w) isDir).2
  obtain hsame | hgone := Disk.target_keep_fewer (fun l => (hclear l).imp_right And.left)
    (Disk.workingDirectory_clear _ _) htarget
  · refine ⟨_, remove_directory isDir short hlook hsame, .ofDir isDir (fun l => ?_) fun m => ?_,
      Disk.lookAt_removeEntry hsame slash short⟩
    · simp only [Disk.node?_removeEntry]
      split
      · next hl => exact .inr ⟨rfl, hl ▸ List.prefix_rfl⟩
      · exact hclear l
    · simp only [Disk.node?_removeEntry]
      split
      · rfl
      · exact hempty m
  · -- the directory is empty, and its path leads nowhere any more
    let cleared : World :=
      { Action.tick w with disk := w.disk.clear (Action.time w) (dir ++ [n]) }
    have hrefused : cleared.disk.removeDirectory (Action.time cleared) p =
        .error (.os Errno.noEntry) := by
      unfold Disk.removeDirectory
      rw [hgone]
      rfl
    refine ⟨Action.tick cleared, ?_, .ofDir isDir hclear hempty, Disk.lookAt_of_lost slash hgone⟩
    unfold remove
    rw [Action.run_bind, Action.run_attempt, Action.run_ask, hlook]
    simp only [hnode]
    unfold removeDirectory
    rw [Action.run_bind, Action.run_change]
    simp only
    rw [Action.run_bind, Action.run_attempt, Action.run_change]
    simp only [hrefused, cleared]
    rfl

end Entry

/-- What becomes of the entry that a path names, if there is one: it goes, so that the path names
nothing any more, but a file stays and is reported. -/
theorem remove_at {p : Path} {w : World} {dir : Location} {n : Name}
    (htarget : w.disk.target .keep p = .ok (.name dir n false)) (slash : p.endsInSlash = false)
    (short : isTooLong n = false) :
    ∃ w', (remove p).run w =
        (if w.disk.kind? (dir ++ [n]) = some .file then .error (.os Errno.notDirectory) else .ok (),
          w') ∧
      Prunes (dir ++ [n]) w.disk w'.disk ∧
      (w.disk.kind? (dir ++ [n]) ≠ some .file →
        w'.disk.lookAt p = .error (.os Errno.noEntry)) := by
  cases hget : w.disk.get? (dir ++ [n]) with
  | none =>
    have hkind : w.disk.kind? (dir ++ [n]) = none :=
      Disk.kind?_eq_none_iff.2 (Disk.node?_eq_none_iff.2 hget)
    have hlook := Disk.lookAt_of_free htarget slash short hget
    refine ⟨w, ?_, .refl (by rw [hkind]; nofun), fun _ => hlook⟩
    rw [remove_of_free hlook, hkind, if_neg nofun]
  | some e =>
    have hkind := Disk.kind?_of_get? hget
    rw [hkind]
    cases hnode : e.node with
    | file id bytes =>
      have noDir : w.disk.kind? (dir ++ [n]) ≠ some .directory := by
        rw [hkind, hnode]
        nofun
      exact ⟨w, remove_file_at htarget slash short hget hnode, .refl noDir,
        fun hfile => absurd rfl hfile⟩
    | symlink old =>
      obtain ⟨w', hremove, prunes, gone⟩ := remove_link_at htarget slash short hget hnode
      exact ⟨w', hremove, prunes, fun _ => gone⟩
    | directory =>
      obtain ⟨w', hremove, prunes, gone⟩ := remove_directory_at htarget slash short hget hnode
      exact ⟨w', hremove, prunes, fun _ => gone⟩

end Tree

end TwinTrees
