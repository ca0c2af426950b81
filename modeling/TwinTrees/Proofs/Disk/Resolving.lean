import TwinTrees.Proofs.Disk.Removal
import TwinTrees.Proofs.Outcome

/-!
# Paths to what may be missing

A path also stands for a place at which nothing is yet: what is there is followed, and the names that
are left go down from it (`Disk.Resolves`). Either all that the path follows is there up to a directory,
from which it goes down names that are no links (`Disk.Reaches`), or it passes through a link that leads
to no directory (`Disk.Stuck`). In the second case no directory is made on the way to the place.
-/

namespace TwinTrees.Disk

open TwinTrees.Action (Leaves)

variable {d d' : Disk} {k j : Nat} {cur dir l m : Location} {n : Name} {steps rest : List Step}
  {p q : Path} {old : Path} {mode : Mode} {t : Time}

/-- Where steps lead from a directory if directories are taken to be where there is nothing. To go up
with `..` there has to be a directory, as for a request. -/
inductive Resolves (d : Disk) : Location → List Step → Location → Prop
  | nil {cur : Location} : Resolves d cur [] cur
  | here {cur l : Location} {rest : List Step} (onward : Resolves d cur rest l) :
      Resolves d cur (.here :: rest) l
  | up {cur l : Location} {rest : List Step} (isDir : d.IsDir cur)
      (onward : Resolves d cur.dropLast rest l) : Resolves d cur (.up :: rest) l
  | name {cur l : Location} {n : Name} {rest : List Step}
      (notLink : ∀ old, d.node? (cur ++ [n]) ≠ some (.symlink old))
      (onward : Resolves d (cur ++ [n]) rest l) : Resolves d cur (.name n :: rest) l
  | link {cur l : Location} {n : Name} {old : Path} {rest : List Step}
      (isLink : d.node? (cur ++ [n]) = some (.symlink old))
      (onward : Resolves d (old.startFrom cur) (old.steps ++ rest) l) :
      Resolves d cur (.name n :: rest) l

/-- A way along the first steps leads to a directory, from which the others go down to the place without
meeting a link. -/
def Reaches (d : Disk) (cur : Location) (steps : List Step) (l : Location) : Prop :=
  ∃ before after k dir, steps = before ++ after ∧ d.Route k cur before dir ∧ Descends after ∧
    l = dir ++ stepNames after ∧
    ∀ m, m <+: stepNames after → m ≠ [] → ∀ old, d.node? (dir ++ m) ≠ some (.symlink old)

/-- A way along the first steps leads to a link, and there is no way along its path. -/
def Stuck (d : Disk) (cur : Location) (steps : List Step) : Prop :=
  ∃ before n after k dir old, steps = before ++ .name n :: after ∧ d.Route k cur before dir ∧
    d.node? (dir ++ [n]) = some (.symlink old) ∧ ∀ j l, ¬ d.Route j (old.startFrom dir) old.steps l

theorem Stuck.not_route (h : d.Stuck cur steps) : ¬ d.Route k cur steps l := by
  obtain ⟨before, n, after, i, dir, old, rfl, route, isLink, none⟩ := h
  intro r
  obtain ⟨_, _, m, -, r₁, r₂⟩ := r.split
  obtain ⟨-, rfl⟩ := r₁.unique route
  cases r₂ with
  | directory isDir => cases isDir.symm.trans isLink
  | link isLink' onward =>
    cases isLink.symm.trans isLink'
    obtain ⟨j, _, m, -, r₁, -⟩ := onward.split
    exact none _ m r₁

/-- Nothing is below what is no directory. -/
theorem IsTree.free_below (t : d.IsTree) (notDir : ¬ d.IsDir cur) (hm : m ≠ []) :
    d.node? (cur ++ m) = none := by
  by_contra there
  exact notDir (t.isDir_of_append there hm)

/-- From what is no directory, steps can only go down. -/
theorem Resolves.of_not_isDir (t : d.IsTree) (h : d.Resolves cur steps l) (notDir : ¬ d.IsDir cur)
    (names : ∀ n, .name n ∈ steps → (Step.name n).IsDown) :
    Descends steps ∧ l = cur ++ stepNames steps := by
  induction h with
  | nil => exact ⟨nofun, (List.append_nil _).symm⟩
  | here _ ih =>
    obtain ⟨down, heq⟩ := ih notDir fun n hn => names n (List.mem_cons_of_mem _ hn)
    exact ⟨List.forall_mem_cons.2 ⟨trivial, down⟩, heq⟩
  | up isDir => exact absurd isDir notDir
  | @name cur l n rest _ _ ih =>
    have hfree : d.node? (cur ++ [n]) = none := t.free_below notDir (List.cons_ne_nil _ _)
    obtain ⟨down, heq⟩ := ih (not_isDir_of_free hfree) fun n hn => names n (List.mem_cons_of_mem _ hn)
    exact ⟨List.forall_mem_cons.2 ⟨names n List.mem_cons_self, down⟩,
      heq.trans (List.append_cons ..).symm⟩
  | link isLink =>
    rw [t.free_below notDir (List.cons_ne_nil _ _)] at isLink
    cases isLink

theorem Reaches.of_route (r : d.Route k cur steps l) : d.Reaches cur steps l := by
  refine ⟨steps, [], k, l, (List.append_nil _).symm, r, nofun, (List.append_nil _).symm, ?_⟩
  exact fun m hm hne => absurd (List.prefix_nil.1 hm) hne

/-- A step that a way can take comes before. -/
theorem Reaches.cons {st : Step} {cur' : Location} (h : d.Reaches cur' rest l)
    (step : ∀ {k before dir}, d.Route k cur' before dir → d.Route k cur (st :: before) dir) :
    d.Reaches cur (st :: rest) l := by
  obtain ⟨before, after, k, dir, rfl, route, down⟩ := h
  exact ⟨st :: before, after, k, dir, rfl, step route, down⟩

theorem Stuck.cons {st : Step} {cur' : Location} (h : d.Stuck cur' rest)
    (step : ∀ {k before dir}, d.Route k cur' before dir → d.Route k cur (st :: before) dir) :
    d.Stuck cur (st :: rest) := by
  obtain ⟨before, n, after, k, dir, old, rfl, route, stuck⟩ := h
  exact ⟨st :: before, n, after, k, dir, old, rfl, step route, stuck⟩

/-- A link whose path leads nowhere stops the way, and the steps of its path that are there are followed
before those after it. -/
theorem Stuck.link (isLink : d.node? (cur ++ [n]) = some (.symlink old))
    (h : d.Stuck (old.startFrom cur) (old.steps ++ rest)) : d.Stuck cur (.name n :: rest) := by
  obtain ⟨before, n', after, k, dir, old', hsteps, route, isLink', none⟩ := h
  obtain ⟨before', rfl, rfl⟩ | ⟨after', hold, hafter⟩ := List.append_eq_append_iff.1 hsteps
  · exact ⟨.name n :: before', n', after, k + 1, dir, old', rfl, .link isLink route, isLink', none⟩
  · cases after' with
    | nil =>
      have hbefore : before = old.steps := by rw [hold, List.append_nil]
      rw [List.nil_append] at hafter
      subst hbefore
      exact ⟨[.name n], n', after, k + 1, dir, old', by rw [← hafter]; rfl,
        .link isLink (by rwa [List.append_nil]), isLink', none⟩
    | cons st after' =>
      obtain ⟨rfl, rfl⟩ := List.cons.inj hafter
      have hstuck : d.Stuck (old.startFrom cur) old.steps :=
        ⟨before, n', after', k, dir, old', hold, route, isLink', none⟩
      exact ⟨[], n, rest, 0, cur, old, rfl, .nil, isLink, fun j l => hstuck.not_route⟩

theorem Reaches.link (t : d.IsTree) (start : d.IsDir cur)
    (isLink : d.node? (cur ++ [n]) = some (.symlink old))
    (h : d.Reaches (old.startFrom cur) (old.steps ++ rest) l) :
    d.Reaches cur (.name n :: rest) l ∨ d.Stuck cur (.name n :: rest) := by
  obtain ⟨before, after, k, dir, hsteps, route, down, rfl, notLink⟩ := h
  obtain ⟨before', rfl, rfl⟩ | ⟨after', hold, rfl⟩ := List.append_eq_append_iff.1 hsteps
  · exact .inl ⟨.name n :: before', after, k + 1, dir, rfl, .link isLink route, down, rfl, notLink⟩
  · have hnames : stepNames (after' ++ rest) = stepNames after' ++ stepNames rest :=
      List.filterMap_append ..
    rw [hnames] at notLink ⊢
    have hdown : Descends after' := fun st hst => down st (List.mem_append_left _ hst)
    by_cases isDir : d.IsDir (dir ++ stepNames after')
    · -- the path of the link leads to a directory
      have honward := Route.descend_of_isDir t hdown isDir
      have hroute : d.Route (k + 0) (old.startFrom cur) (old.steps ++ []) (dir ++ stepNames after') := by
        rw [hold, List.append_nil]
        exact route.append honward
      refine .inl ⟨[.name n], rest, _, _, rfl, .link isLink hroute,
        fun st hst => down st (List.mem_append_right _ hst), (List.append_assoc ..).symm,
        fun m hm hne old' => ?_⟩
      rw [List.append_assoc]
      exact notLink _ ((List.prefix_append_right_inj _).2 hm) (by simp [hne]) old'
    · refine .inr ⟨[], n, rest, 0, cur, old, rfl, .nil, isLink, fun j l r => isDir ?_⟩
      rw [hold] at r
      obtain ⟨_, _, m, -, r₁, r₂⟩ := r.split
      obtain ⟨-, rfl⟩ := r₁.unique route
      have hend := r₂.eq_of_noLink hdown fun m hm old' => ?_
      · exact hend ▸ r.isDir_end t (t.isDir_startFrom start old)
      · by_cases hne : m = []
        · rw [hne, List.append_nil]
          exact (r₁.isDir_end t (t.isDir_startFrom start old)).ne_symlink old'
        · exact notLink m (hm.trans (List.prefix_append _ _)) hne old'

theorem Resolves.reaches_or_stuck (t : d.IsTree) (h : d.Resolves cur steps l) (isDir : d.IsDir cur)
    (names : ∀ n, .name n ∈ steps → (Step.name n).IsDown) :
    d.Reaches cur steps l ∨ d.Stuck cur steps := by
  induction h with
  | nil => exact .inl (.of_route .nil)
  | here _ ih =>
    exact (ih isDir fun n hn => names n (List.mem_cons_of_mem _ hn)).imp (·.cons .here) (·.cons .here)
  | @up cur _ _ _ _ ih =>
    exact (ih (t.isDir_dropLast isDir) fun n hn => names n (List.mem_cons_of_mem _ hn)).imp
      (·.cons .up) (·.cons .up)
  | @name cur l n rest notLink onward ih =>
    have hrest : ∀ n, .name n ∈ rest → (Step.name n).IsDown :=
      fun n hn => names n (List.mem_cons_of_mem _ hn)
    by_cases hdir : d.IsDir (cur ++ [n])
    · exact (ih hdir hrest).imp (·.cons (.directory hdir)) (·.cons (.directory hdir))
    · obtain ⟨down, rfl⟩ := onward.of_not_isDir t hdir hrest
      refine .inl ⟨[], .name n :: rest, 0, cur, rfl, .nil,
        List.forall_mem_cons.2 ⟨names n List.mem_cons_self, down⟩, (List.append_cons ..).symm,
        fun m hm hne old => ?_⟩
      obtain ⟨n', m, rfl⟩ := List.exists_cons_of_ne_nil hne
      obtain ⟨rfl, -⟩ := List.cons_prefix_cons.1 hm
      rw [List.append_cons]
      by_cases hnil : m = []
      · rw [hnil, List.append_nil]
        exact notLink old
      · rw [t.free_below hdir hnil]
        nofun
  | @link cur l n old rest isLink onward ih =>
    have hnames : ∀ n', .name n' ∈ old.steps ++ rest → (Step.name n').IsDown := fun n' hn' =>
      (List.mem_append.1 hn').elim Path.mem_steps_name fun hn' =>
        names n' (List.mem_cons_of_mem _ hn')
    obtain hreach | hstuck := ih (t.isDir_startFrom isDir old) hnames
    · exact hreach.link t isDir isLink
    · exact .inr (hstuck.link isLink)

/-! ## Making directories along a path that is stuck -/

/-- No directory is made at such a path or at one above it. -/
theorem Stuck.not_made (h : d.Stuck (p.startFrom d.workingDirectory) p.steps) (sound : d.IsSound p)
    (absolute : q.isAbsolute = p.isAbsolute) (above : q.steps <+: p.steps) :
    d.makeDirectory t q mode ≠ .ok d' := by
  intro hmake
  obtain ⟨dir', n', made⟩ := made_of_makeDirectory (sound.of_isAbsolute_eq absolute) hmake
  obtain ⟨front, hq, j, -, route'⟩ := made.steps
  rw [Path.startFrom, absolute, ← Path.startFrom] at route'
  obtain ⟨before, n, after, k, dir, old, hsteps, route, isLink, none⟩ := h
  obtain ⟨more, hmore⟩ := above
  rw [hq, hsteps, List.append_assoc] at hmore
  -- the name at which a directory would be made is passed, or is the link, or comes after it
  obtain ⟨c, rfl, hc⟩ | ⟨c, rfl, hc⟩ := List.append_eq_append_iff.1 hmore
  · cases c with
    | nil =>
      rw [List.append_nil] at route
      obtain ⟨-, rfl⟩ := route.unique route'
      cases (List.cons.inj hc).1
      rw [made.free] at isLink
      cases isLink
    | cons st c =>
      obtain ⟨rfl, -⟩ := List.cons.inj hc
      exact route'.node?_ne_none route made.free
  · cases c with
    | nil =>
      rw [List.append_nil] at route'
      obtain ⟨-, rfl⟩ := route'.unique route
      cases (List.cons.inj hc).1
      rw [made.free] at isLink
      cases isLink
    | cons st c =>
      obtain ⟨rfl, -⟩ := List.cons.inj hc
      have hstuck : d.Stuck (p.startFrom d.workingDirectory) (before ++ .name n :: c) :=
        ⟨before, n, c, k, dir, old, rfl, route, isLink, none⟩
      exact hstuck.not_route route'

theorem Stuck.makeDirectories (h : d.Stuck (p.startFrom d.workingDirectory) p.steps)
    (sound : d.IsSound p) :
    Leaves (· = d) (Tree.makeDirectories p mode) (fun _ _ => False) (· = d) := by
  have hkept : ∀ w, w.disk = d → ((Tree.makeDirectories p mode).run w).2.disk = d := by
    intro w hw
    refine Tree.makeDirectoriesAlong_keeps (I := fun w => w.disk = d) (fun q hq w hw => ?_) w hw
    rw [Action.run_change]
    cases hmake : w.disk.makeDirectory (Action.time w) q mode with
    | error fault => exact hw
    | ok d' =>
      obtain ⟨absolute, above⟩ := Path.of_mem_ancestors hq
      rw [hw] at hmake
      exact absurd hmake (h.not_made sound absolute above)
  constructor
  · intro w x w' hw hrun
    have hd := hkept w hw
    obtain ⟨before, n, after, k, dir, old, hsteps, -⟩ := id h
    have hmem : Step.name n ∈ p.steps := by rw [hsteps]; simp
    obtain ⟨hthere, -⟩ := Tree.of_makeDirectories mode (hw ▸ sound) (Path.text_isEmpty_eq_false hmem)
      (congrArg Prod.fst hrun)
    rw [hd] at hthere
    obtain ⟨l, ⟨-, k, -, route⟩, -⟩ := (isDirectory_iff sound.toIsTree).1 hthere
    exact h.not_route route
  · intro w e w' hw hrun
    have hd := hkept w hw
    rwa [hrun] at hd

end TwinTrees.Disk
