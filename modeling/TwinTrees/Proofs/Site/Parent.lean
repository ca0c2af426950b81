import TwinTrees.Proofs.Site.Action
import TwinTrees.Tree.Make

/-!
# Making directories at a site

A directory is made with the directories above it. Above a path that leads inside are paths that
lead inside, down to a side; there is a directory already, so nothing above the side is ever asked
for (`Agrees.makeDirectories`). Only the parent of a side itself is the directory of the test, and
it is there as well.
-/

namespace TwinTrees.Site

variable {ε : Type} {s : Site} {times : Bool} {env₁ env₂ : Environment} {d d₁ d₂ : Disk}
  {p q : Path} {P : Disk → Disk → Prop}

/-- The path leads to a side and stays there. -/
def AtSide (s : Site) (p : Path) : Prop :=
  ∃ (side : Side) (rest : List Step), (∀ st ∈ rest, st = .here) ∧
    p.steps = s.runRoot.steps ++ .name s.name :: .name side.name.toList :: rest

/-- The path leads to the directory of the test. -/
structure AtRoot (s : Site) (p : Path) : Prop where
  absolute : p.isAbsolute = s.runRoot.isAbsolute
  steps : p.steps = s.runRoot.steps ++ [.name s.name]

/-- What is left of a list that ends in another step when steps that stay are cut off. -/
theorem eq_nil_of_heres {front cut before : List Step} {n : Name}
    (h : front ++ [.name n] = before ++ cut) (hcut : ∀ st ∈ cut, st = .here) : cut = [] := by
  obtain rfl | ⟨cut, st, rfl⟩ := cut.eq_nil_or_concat'
  · rfl
  · rw [← List.append_assoc] at h
    obtain ⟨-, hst⟩ := List.append_inj' h rfl
    cases hst
    cases hcut (.name n) (by simp)

theorem Leads.parent (hp : s.Leads p) (hq : p.parent? = some q) :
    s.Leads q ∨ s.AtSide p ∧ s.AtRoot q := by
  obtain ⟨side, more, hmore, hsteps⟩ := hp.steps
  obtain ⟨before, st, after, hparent, hbefore, hafter, -⟩ := Path.steps_parent hq
  have habs : q.isAbsolute = s.runRoot.isAbsolute :=
    (Path.isAbsolute_parent hq).trans hp.absolute
  have hside : s.runRoot.steps ++ .name s.name :: .name side.name.toList :: more =
      (s.runRoot.steps ++ [.name s.name] ++ [.name side.name.toList]) ++ more := by simp
  rw [hsteps, hside, List.append_eq_append_iff] at hparent
  obtain ⟨onward, hfront, hmore'⟩ | ⟨cut, hfront, hrest⟩ := hparent
  · refine .inl ⟨habs, side, ?_⟩
    rw [List.append_eq_append_iff] at hfront
    obtain ⟨cut, hq', hcut⟩ | ⟨onward', hq', rfl⟩ := hfront
    · obtain rfl := eq_nil_of_heres hq' fun st hst => hbefore st (by rw [hcut]; simp [hst])
      exact ⟨[], nofun, by simpa using hq'.symm⟩
    · refine ⟨onward', fun st hst => hmore st ?_, by rw [hq']; simp⟩
      rw [hmore']
      simp [hst]
  · cases cut with
    | nil =>
      rw [List.append_nil] at hfront
      obtain rfl := eq_nil_of_heres hfront hbefore
      exact .inl ⟨habs, side, [], nofun, by simpa using hfront.symm⟩
    | cons st' cut =>
      rw [List.cons_append, List.cons.injEq] at hrest
      obtain ⟨rfl, rfl⟩ := hrest
      have hfront : (s.runRoot.steps ++ [.name s.name]) ++ [.name side.name.toList] =
          ((q.steps ++ before) ++ [st]) ++ cut := by rw [hfront]; simp
      obtain rfl := eq_nil_of_heres hfront fun x hx => hafter x (by simp [hx])
      rw [List.append_nil] at hfront
      obtain ⟨hroot, -⟩ := List.append_inj' hfront rfl
      obtain rfl := eq_nil_of_heres hroot hbefore
      refine .inr ⟨⟨side, more, fun x hx => hafter x (by simp [hx]), hsteps⟩, habs, ?_⟩
      rw [hroot, List.append_nil]

theorem proceed_heres {last : LastLink} {links : Nat} {slash : Bool} {cur : Location} {e : Ending}
    {rest : List Step} (h : ∀ st ∈ rest, st = .here) :
    ∃ e', d.proceed last links slash cur e rest = .ok (.directory cur e') := by
  induction rest generalizing e with
  | nil => exact ⟨e, rfl⟩
  | cons st rest ih =>
    obtain rfl := h st List.mem_cons_self
    exact ih fun st hst => h st (List.mem_cons_of_mem _ hst)

theorem fault?_ne_noEntry (h : p.steps ≠ []) : s.fault? p ≠ some (.os Errno.noEntry) := by
  obtain ⟨st, rest, hsteps⟩ := List.exists_cons_of_ne_nil h
  have hst : st ∈ p.steps := by rw [hsteps]; exact List.mem_cons_self
  have hempty := Path.text_isEmpty_eq_false hst
  unfold fault?
  rw [hempty]
  split
  · decide
  · rw [if_neg nofun]
    split
    · decide
    · split <;> decide

/-- What asking for a directory at a path through the run root comes to, if it is there. -/
def thereFault (s : Site) (p : Path) : IoError := (s.fault? p).getD (.os Errno.alreadyExists)

theorem thereFault_ne_noEntry (h : p.steps ≠ []) : s.thereFault p ≠ .os Errno.noEntry := by
  unfold thereFault
  have := fault?_ne_noEntry (s := s) h
  cases hfault : s.fault? p with
  | none => decide
  | some fault => exact fun heq => this (by rw [hfault]; exact congrArg some heq)

namespace Standing

theorem makeDirectory_root (h : s.Standing d) (hp : s.AtRoot p) {t : Time} {mode : Mode} :
    d.makeDirectory t p mode = .error (s.thereFault p) := by
  have htarget := h.target_eq .keep hp.absolute hp.steps (List.cons_ne_nil _ _)
  unfold thereFault
  cases hfault : s.fault? p with
  | some fault =>
    rw [hfault] at htarget
    unfold Disk.makeDirectory
    rw [htarget]
    rfl
  | none =>
    rw [hfault, Disk.proceed_name, if_pos ⟨rfl, rfl⟩] at htarget
    refine Disk.makeDirectory_of_there htarget ?_
    rintro _ _ _ ⟨⟩
    exact ⟨s.isName.short, Disk.node?_ne_none_of_eq h.isDir_root⟩

theorem makeDirectory_side (h : s.Standing d) (hp : s.Leads p) (hside : s.AtSide p) {t : Time}
    {mode : Mode} : d.makeDirectory t p mode = .error (s.thereFault p) := by
  obtain ⟨side, rest, hrest, hsteps⟩ := hside
  have htarget := h.target_eq .keep hp.absolute hsteps (List.cons_ne_nil _ _)
  have hnode := h.sides side
  rw [Disk.IsDir, Site.side] at hnode
  unfold thereFault
  cases hfault : s.fault? p with
  | some fault =>
    rw [hfault] at htarget
    unfold Disk.makeDirectory
    rw [htarget]
    rfl
  | none =>
    have hroot : d.Route 0 s.home [.name s.name] s.root := .single h.isDir_root
    rw [hfault, ← List.singleton_append, ← Nat.zero_add (linkLimit - s.links)] at htarget
    simp only at htarget
    rw [hroot.proceed h.tree (f := .here) (List.cons_ne_nil _ _), Disk.proceed_name,
      side.isName.short, if_neg Bool.false_ne_true, hnode] at htarget
    cases rest with
    | nil =>
      refine Disk.makeDirectory_of_there htarget ?_
      rintro _ _ _ ⟨⟩
      exact ⟨side.isName.short, Disk.node?_ne_none_of_eq hnode⟩
    | cons st rest =>
      obtain ⟨e', he'⟩ : ∃ e', d.proceed .keep (linkLimit - s.links) p.endsInSlash
          (s.root ++ [side.name.toList]) .here (st :: rest) = .ok (.directory _ e') :=
        proceed_heres hrest
      rw [if_neg (by simp)] at htarget
      simp only [if_neg (List.cons_ne_nil st rest), he'] at htarget
      exact Disk.makeDirectory_of_there htarget fun _ _ _ heq => by cases heq

theorem isDirectory_root (h : s.Standing d) (hp : s.AtRoot p) :
    d.isDirectory p = (s.fault? p).isNone := by
  unfold Disk.isDirectory
  cases hfault : s.fault? p with
  | some fault =>
    unfold Disk.find
    rw [h.target_eq (if true || p.endsInSlash then .follow else .keep) hp.absolute hp.steps
      (List.cons_ne_nil _ _), hfault]
    rfl
  | none =>
    obtain ⟨e, he, hdir⟩ := Disk.isDir_iff.1 h.isDir_root
    have hroute : d.Route s.links (p.startFrom d.workingDirectory) p.steps s.root := by
      rw [Path.startFrom, hp.absolute, hp.steps]
      exact h.wholeRoute.append (.single h.isDir_root)
    unfold fault? at hfault
    split at hfault
    · cases hfault
    · next hnul =>
      split at hfault
      · cases hfault
      · next hempty =>
        split at hfault
        · cases hfault
        · next hlong =>
          split at hfault
          · cases hfault
          · next hlinks =>
            rw [hroute.find h.tree (Nat.le_of_not_lt hlinks) (Bool.eq_false_iff.2 hnul)
              (Bool.eq_false_iff.2 hempty) (Nat.lt_of_not_le hlong) he hdir]
            simp only [hdir]
            rfl

end Standing

namespace Agrees

/-- If the directory is not there, the answer does not depend on the run. -/
theorem settle (hp : s.Leads p ∨ s.AtRoot p) (fault : IoError) :
    s.Agrees times env₁ env₂ P (Tree.makeDirectoriesAlong.settle p fault)
      (Tree.makeDirectoriesAlong.settle p fault) Done := by
  refine ask fun d₁ d₂ tw _ => .of_eq ?_ fun _ _ => trivial
  have hsame : d₁.isDirectory p = d₂.isDirectory p := by
    obtain hp | hp := hp
    · exact tw.isDirectory hp
    · rw [tw.left.isDirectory_root hp, tw.right.isDirectory_root hp]
  rw [hsame]

/-- The attempt to make a directory inside; where it is a side, nothing is found missing. -/
theorem attemptDirectory (hp : s.Leads p) (mode : Mode) :
    s.Agrees times env₁ env₂ P
      ((Action.change fun t d => d.makeDirectory t p mode).attempt : Action IoError _)
      ((Action.change fun t d => d.makeDirectory t p mode).attempt : Action IoError _)
      fun (x y : Except IoError Unit) _ _ =>
        x = y ∧ (s.AtSide p → x ≠ .error (.os Errno.noEntry)) := by
  intro w₁ w₂ hw hP
  have hsteps : p.steps ≠ [] := by
    obtain ⟨side, more, -, hsteps⟩ := hp.steps
    rw [hsteps]
    simp
  have hside : s.AtSide p → w₁.disk.makeDirectory (Action.time w₁) p mode ≠
      .error (.os Errno.noEntry) := by
    intro hside heq
    rw [hw.twins.left.makeDirectory_side hp hside] at heq
    exact thereFault_ne_noEntry hsteps (Except.error.inj heq)
  have hboth := hw.twins.makeDirectory hp hw.time mode
  rw [Action.run_attempt, Action.run_attempt, Action.run_change, Action.run_change]
  revert hboth hside
  generalize w₁.disk.makeDirectory (Action.time w₁) p mode = x,
    w₂.disk.makeDirectory (Action.time w₂) p mode = y
  rintro hside (⟨hmoves⟩ | e)
  · exact ⟨hw.tick.moves hmoves, hmoves.left.off.mono fun _ => .inl,
      hmoves.right.off.mono fun _ => .inl, .ok ⟨rfl, fun _ => nofun⟩⟩
  · exact ⟨hw.tick, .refl _, .refl _,
      .ok ⟨rfl, fun h heq => hside h (congrArg _ (Except.error.inj heq))⟩⟩

/-- The directories above a path are only asked for if the path does not lead to a side. -/
theorem makeDirectoriesAlong_cons {above : List Path} (hp : s.Leads p) (mode : Mode)
    (habove : ¬ s.AtSide p → s.Agrees times env₁ env₂ Any (Tree.makeDirectoriesAlong mode above)
      (Tree.makeDirectoriesAlong mode above) Done) :
    s.Agrees times env₁ env₂ P (Tree.makeDirectoriesAlong mode (p :: above))
      (Tree.makeDirectoriesAlong mode (p :: above)) Done := by
  rw [Tree.makeDirectoriesAlong]
  split
  · exact pure fun _ _ _ => trivial
  · refine (attemptDirectory hp mode).bind fun x y => given (fun _ _ => id) ?_
    rintro ⟨rfl, hside⟩
    cases x with
    | ok u => exact pure fun _ _ _ => trivial
    | error fault =>
      simp only
      split
      · next hfault =>
        refine (habove fun h => hside h (congrArg _ hfault)).anyway.bind fun _ _ => ?_
        refine (attemptDirectory hp mode).bind fun x y => given (fun _ _ => id) ?_
        rintro ⟨rfl, -⟩
        cases x with
        | ok u => exact pure fun _ _ _ => trivial
        | error fault => exact settle (.inl hp) fault
      · exact settle (.inl hp) fault

theorem makeDirectoriesAlong (mode : Mode) (n : Nat) (hp : s.Leads p) :
    s.Agrees times env₁ env₂ P (Tree.makeDirectoriesAlong mode (p.ancestorsUpTo n))
      (Tree.makeDirectoriesAlong mode (p.ancestorsUpTo n)) Done := by
  induction n generalizing p P with
  | zero => exact makeDirectoriesAlong_cons hp mode fun _ => pure fun _ _ _ => trivial
  | succ n ih =>
    refine makeDirectoriesAlong_cons hp mode fun hside => ?_
    cases hparent : p.parent? with
    | none => exact pure fun _ _ _ => trivial
    | some q => exact ih ((hp.parent hparent).resolve_right fun h => hside h.1)

/-- Making a directory inside, with the directories above it. -/
theorem makeDirectories (hp : s.Leads p) (mode : Mode) :
    s.Agrees times env₁ env₂ P (Tree.makeDirectories p mode) (Tree.makeDirectories p mode) Done :=
  makeDirectoriesAlong mode _ hp

/-- Making the directory of the test, which is there. -/
theorem makeRoot (hp : s.AtRoot p) (mode : Mode) :
    s.Agrees times env₁ env₂ P (Tree.makeDirectories p mode) (Tree.makeDirectories p mode) Done := by
  have hsteps : p.steps ≠ [] := by
    rw [hp.steps]
    simp
  obtain ⟨above, habove⟩ := p.ancestors_eq
  have hattempt : s.Agrees times env₁ env₂ P
      ((Action.change fun t d => d.makeDirectory t p mode).attempt : Action IoError _)
      ((Action.change fun t d => d.makeDirectory t p mode).attempt : Action IoError _)
      fun (x y : Except IoError Unit) _ _ => x = .error (s.thereFault p) ∧ y = x := by
    intro w₁ w₂ hw hP
    rw [Action.run_attempt, Action.run_attempt, Action.run_change, Action.run_change,
      hw.twins.left.makeDirectory_root hp, hw.twins.right.makeDirectory_root hp]
    exact ⟨hw.tick, .refl _, .refl _, .ok ⟨rfl, rfl⟩⟩
  unfold Tree.makeDirectories
  rw [habove, Tree.makeDirectoriesAlong]
  split
  · exact pure fun _ _ _ => trivial
  · refine hattempt.bind fun x y => given (fun _ _ => id) ?_
    rintro ⟨rfl, rfl⟩
    simp only [if_neg (thereFault_ne_noEntry hsteps)]
    exact settle (.inr hp) _

theorem makeDirectory (hp : s.Leads p) :
    s.Agrees times env₁ env₂ P (Tree.makeDirectory p) (Tree.makeDirectory p) Done :=
  (makeDirectories hp _).named _ _

/-- Making the directory that a path inside is to be in. -/
theorem makeParent (hp : s.Leads p) :
    s.Agrees times env₁ env₂ P (Tree.makeParent p) (Tree.makeParent p) Done := by
  unfold Tree.makeParent
  cases hparent : p.parent? with
  | none => exact pure fun _ _ _ => trivial
  | some q =>
    obtain hq | ⟨-, hq⟩ := hp.parent hparent
    · exact makeDirectory hq
    · exact (makeRoot hq _).named _ _

end Agrees

end TwinTrees.Site
