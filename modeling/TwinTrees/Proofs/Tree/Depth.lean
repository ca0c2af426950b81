import TwinTrees.Proofs.Run.Overwriting
import TwinTrees.Proofs.Text.Basic

/-!
# How deep a tree is copied

The number of levels that a copy may go down never decides how it ends. With each level the path of
what is copied gets longer, and a path that is too long cannot be listed; so it makes no difference how
many levels are left once there are more than a path can be long.
-/

namespace TwinTrees

open TwinTrees.Action (Always Leaves run_bind run_bind_ask)

variable {root p target source : Path} {depth depth' : Nat} {n : Name} {d : Disk}
  {copySelf : Action CommandError Unit} {w : World}

theorem Path.byteLength_pos (nonempty : p.text.isEmpty = false) : 0 < Text.byteLength p.text.toList :=
  Text.byteLength_pos fun hnil => by
    rw [String.toList_eq_nil_iff, ← String.isEmpty_iff, nonempty] at hnil
    cases hnil

/-- The path of an entry is longer than that of its directory. -/
theorem Path.byteLength_inside (p : Path) (hn : IsName n) :
    Text.byteLength p.text.toList < Text.byteLength (Tree.inside p n).text.toList := by
  have relative := Path.isAbsolute_name hn.noSlash
  obtain ⟨more, hmore⟩ := Path.text_prefix_join (p := p) relative
  have hne : more ≠ [] := by
    rintro rfl
    rw [List.append_nil] at hmore
    have hsteps := Path.steps_join (p := p) relative
    rw [Path.steps_name hn, Path.steps, ← hmore] at hsteps
    exact List.cons_ne_nil _ _ (List.append_right_eq_self.1 hsteps.symm)
  rw [Tree.inside, ← hmore, Text.byteLength_append]
  exact Nat.lt_add_of_pos_right (Text.byteLength_pos hne)

namespace Tree

/-- So many levels are enough to list what is at a path, or to be refused. -/
def Enough (depth : Nat) (p : Path) : Prop :=
  if p.hasNul then 0 < depth else pathLimit < depth + Text.byteLength p.text.toList

theorem Enough.inside (h : Enough (depth + 1) p) {names : List (Name × Kind)}
    (hlist : d.list p = .ok names) (hn : IsName n) : Enough depth (inside p n) := by
  obtain ⟨l, e, hfind, -⟩ := Disk.of_list hlist
  obtain ⟨target, htarget, -⟩ := Disk.of_find hfind
  obtain ⟨valid, -⟩ := Disk.of_target_eq_ok htarget
  have hshort := valid.short
  have hlonger := Path.byteLength_inside p hn
  rw [Enough, valid.noNul, if_neg Bool.false_ne_true] at h
  unfold Enough
  split <;> omega

/-- With no levels left, the copy ends as it does at a path that is too long. -/
theorem run_copyLevels_of_long (h : Enough 0 source) (root target : Path) (depth : Nat) (w : World) :
    (copyLevels root depth target source copySelf).run w =
      (copyLevels root 0 target source copySelf).run w := by
  unfold Enough at h
  split at h
  · exact absurd h (Nat.lt_irrefl 0)
  · next hnul =>
    have hempty : source.text.isEmpty = false := by
      rw [Bool.eq_false_iff, ne_eq, String.isEmpty_iff]
      intro hempty
      rw [hempty] at h
      exact absurd h (by decide)
    have hlist : w.disk.list source = .error (.os Errno.nameTooLong) := by
      unfold Disk.list Disk.find
      rw [Disk.target_eq, if_neg hnul, hempty, if_neg Bool.false_ne_true, if_pos (by omega)]
      rfl
    cases depth with
    | zero => rfl
    | succ depth =>
      exact (run_bind_ask ..).trans (by rw [hlist, copyLevels])

/-- The disk is a tree, and the working directory is there. -/
def Usable (d : Disk) : Prop := d.IsTree ∧ d.IsDir d.workingDirectory

theorem usable_copyEntry : Always Usable (copyEntry target source) fun _ => True := by
  refine Always.of_disk fun w usable => ?_
  have hspares (u : Disk) : Leaves (Disk.Spares .console [] [target] u) (copyEntry target source)
      (fun _ => Disk.Spares .console [] [target] u) (Disk.Spares .console [] [target] u) :=
    Disk.Spares.copyEntry (.inr (List.mem_singleton.2 rfl))
  have hgrows := Disk.Spares.grows hspares w.disk
  exact (hgrows.disk ⟨usable, .refl _⟩).1

/-- The copy of a tree keeps what the copies of entries keep. -/
theorem always_copyLevels {I : Disk → Prop} (root : Path)
    (entry : ∀ target source, Always I (copyEntry target source) fun _ => True)
    (kept : Always I copySelf fun _ => True) :
    Always I (copyLevels root depth target source copySelf) fun _ => True := by
  induction depth generalizing target source copySelf with
  | zero => exact kept.bind fun _ _ => Always.throw _
  | succ depth ih =>
    rw [copyLevels]
    refine (Always.ask (Q := fun _ => True) fun _ _ _ _ => trivial).bind fun found _ =>
      kept.bind fun _ _ => ?_
    cases found with
    | error fault => exact Always.throw _
    | ok names =>
      refine Always.forM fun x _ => ?_
      simp only
      split
      · exact ih (entry _ _)
      · exact entry _ _

theorem usable_copyLevels (root : Path) (kept : Always Usable copySelf fun _ => True) :
    Always Usable (copyLevels root depth target source copySelf) fun _ => True :=
  always_copyLevels root (fun _ _ => usable_copyEntry) kept

/-- As long as there are enough levels, it does not matter how many there are. -/
theorem run_copyLevels_of_enough (root : Path) (h : Enough depth source) (h' : Enough depth' source)
    (kept : Always Usable copySelf fun _ => True) (usable : Usable w.disk) :
    (copyLevels root depth target source copySelf).run w =
      (copyLevels root depth' target source copySelf).run w := by
  induction depth generalizing depth' target source copySelf w with
  | zero => exact (run_copyLevels_of_long h root target depth' w).symm
  | succ depth ih =>
    cases depth' with
    | zero => exact run_copyLevels_of_long h' root target (depth + 1) w
    | succ depth' =>
      rw [copyLevels, copyLevels, run_bind_ask, run_bind_ask, run_bind, run_bind]
      have hself := kept.disk usable
      generalize copySelf.run w = x at hself ⊢
      obtain ⟨x, v⟩ := x
      cases x with
      | error e => rfl
      | ok x =>
        cases hlist : w.disk.list source with
        | error fault => rfl
        | ok names =>
          refine Always.run_forM_congr (I := Usable) (fun x hx v hv => ?_) (fun x _ => ?_) hself
          · obtain ⟨n, kind⟩ := x
            have isName := usable.1.isName_of_list hlist ((List.mergeSort_perm ..).subset hx)
            simp only
            split
            · exact ih (h.inside hlist isName) (h'.inside hlist isName) usable_copyEntry hv
            · rfl
          · simp only
            split
            · exact usable_copyLevels root usable_copyEntry
            · exact usable_copyEntry

end Tree

end TwinTrees
