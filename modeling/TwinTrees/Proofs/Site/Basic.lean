import TwinTrees.Environment
import TwinTrees.Proofs.Disk.Directory

/-!
# The place of a test

A `Site` is where the directory of a test is or will be: below the place that the path of the run
root leads to. `Site.Standing` is the invariant of a disk on which the test can act: its two sides
are there, the way to the run root does not go through the directory of the test, and every link inside
the sides has a path that leads into a side again. So nothing inside leads out, however many links
are followed, and a walk along a path that leads inside sees nothing but the way to the run root and
what is inside: `Standing.target_leads` finds the same on all disks that look the same there.
-/

namespace TwinTrees

/-- Where a test has its directory. -/
structure Site where
  runRoot : Path
  /-- Where the path of the run root leads. -/
  home : Location
  /-- The number of links on that way. -/
  links : Nat
  name : Name
  isName : IsName name
  /-- From wherever a link has it as its path, the run root is the same, or below. -/
  anchored : runRoot.isAbsolute = true ∨ Descends runRoot.steps

theorem Side.isName (side : Side) : IsName side.name.toList := by
  cases side <;> exact ⟨by decide, by decide, by decide⟩

namespace Site

variable {s : Site} {l : Location}

/-- The directory of the test. -/
def root (s : Site) : Location := s.home ++ [s.name]

/-- The directory of a side. -/
def side (s : Site) (side : Side) : Location := s.root ++ [side.name.toList]

/-- The log. -/
def log (s : Site) : Location := s.root ++ [LogSink.fileName.toList]

/-- The location is a side or below one. -/
def Inside (s : Site) (l : Location) : Prop := s.side .lhs <+: l ∨ s.side .rhs <+: l

/-- The location is one that the commands of the test write to. -/
def Owns (s : Site) (l : Location) : Prop := s.Inside l ∨ l = s.log

/-- The location is the directory of the test or below it. -/
def Below (s : Site) (l : Location) : Prop := s.root <+: l

/-- The location is not in the run root. -/
def Apart (s : Site) (l : Location) : Prop := ¬ (s.home <+: l ∧ l ≠ s.home)

instance : DecidablePred s.Inside := fun _ => inferInstanceAs (Decidable (_ ∨ _))
instance : DecidablePred s.Owns := fun _ => inferInstanceAs (Decidable (_ ∨ _))
instance : DecidablePred s.Below := fun l => inferInstanceAs (Decidable (s.root <+: l))
instance : DecidablePred s.Apart := fun _ => inferInstanceAs (Decidable (¬ (_ ∧ _)))

theorem inside_iff : s.Inside l ↔ ∃ side, s.side side <+: l :=
  ⟨fun h => h.elim (fun h => ⟨.lhs, h⟩) fun h => ⟨.rhs, h⟩,
    fun ⟨side, h⟩ => by cases side; exacts [.inl h, .inr h]⟩

theorem inside_side (side : Side) : s.Inside (s.side side) :=
  inside_iff.2 ⟨side, List.prefix_rfl⟩

theorem Inside.append (h : s.Inside l) (more : Location) : s.Inside (l ++ more) := by
  obtain ⟨side, h⟩ := inside_iff.1 h
  exact inside_iff.2 ⟨side, h.trans (List.prefix_append l more)⟩

theorem Inside.below (h : s.Inside l) : s.Below l := by
  obtain ⟨side, h⟩ := inside_iff.1 h
  exact (List.prefix_append s.root _).trans h

theorem Inside.ne_root (h : s.Inside l) : l ≠ s.root := by
  rintro rfl
  obtain ⟨side, h⟩ := inside_iff.1 h
  have := h.length_le
  simp only [Site.side, List.length_append, List.length_cons, List.length_nil] at this
  omega

theorem Inside.ne_log (h : s.Inside l) : l ≠ s.log := by
  rintro rfl
  obtain ⟨side, h⟩ := inside_iff.1 h
  have := List.append_inj_right (h.eq_of_length (by simp [Site.side, log])) rfl
  cases side <;> exact absurd this (by decide)

theorem Owns.below (h : s.Owns l) : s.Below l := by
  obtain h | rfl := h
  · exact h.below
  · exact List.prefix_append _ _

theorem Below.not_apart (h : s.Below l) : ¬ s.Apart l := by
  refine not_not_intro ⟨(List.prefix_append s.home _).trans h, ?_⟩
  rintro rfl
  have := h.length_le
  simp only [root, List.length_append, List.length_cons, List.length_nil] at this
  omega

theorem home_apart : s.Apart s.home := fun h => h.2 rfl

/-- The path leads into a side: by the run root, the test and the side, and then never up. -/
structure Leads (s : Site) (p : Path) : Prop where
  absolute : p.isAbsolute = s.runRoot.isAbsolute
  steps : ∃ (side : Side) (more : List Step), Descends more ∧
    p.steps = s.runRoot.steps ++ .name s.name :: .name side.name.toList :: more

/-- From a run root that has a relative path, the way into a side leads down. -/
theorem descends_side (s : Site) (relative : s.runRoot.isAbsolute = false) (side : Side)
    {more : List Step} (down : Descends more) :
    Descends (s.runRoot.steps ++ .name s.name :: .name side.name.toList :: more) := by
  refine (s.anchored.resolve_left (Bool.eq_false_iff.1 relative)).append fun st hst => ?_
  obtain rfl | hst := List.mem_cons.1 hst
  · exact s.isName.isDown
  · obtain rfl | hst := List.mem_cons.1 hst
    · exact side.isName.isDown
    · exact down st hst

/-- The path leads into a side and then on. -/
structure Enters (s : Site) (p : Path) : Prop where
  absolute : p.isAbsolute = s.runRoot.isAbsolute
  steps : ∃ (side : Side) (more : List Step), Descends more ∧ more ≠ [] ∧
    p.steps = s.runRoot.steps ++ .name s.name :: .name side.name.toList :: more

theorem Enters.leads {p : Path} (h : s.Enters p) : s.Leads p :=
  ⟨h.absolute, let ⟨side, more, hmore, _, hsteps⟩ := h.steps; ⟨side, more, hmore, hsteps⟩⟩

/-- A disk on which the path of the run root leads to the home of the site, without passing through
the directory of the test or anything below it. -/
structure Found (s : Site) (d : Disk) : Prop where
  tree : d.IsTree
  route : (d.part fun l => ¬ s.Below l).Route s.links (s.runRoot.startFrom d.workingDirectory)
    s.runRoot.steps s.home

/-- A disk on which the path of the run root leads to the home of the site, without passing through
anything that is in it. -/
structure Reached (s : Site) (d : Disk) : Prop where
  tree : d.IsTree
  route : (d.part s.Apart).Route s.links (s.runRoot.startFrom d.workingDirectory) s.runRoot.steps
    s.home

/-- A disk on which the test can act (see the module docstring). -/
structure Standing (s : Site) (d : Disk) : Prop extends Found s d where
  sides : ∀ side, d.IsDir (s.side side)
  enclosed : ∀ {l target}, s.Inside l → d.node? l = some (.symlink target) → s.Leads target

/-- Where a walk inside comes out: at a directory inside, at a name in one, or at a side. -/
inductive Lands (s : Site) (d : Disk) : Target → Prop
  | directory {l : Location} {e : Ending} (inside : s.Inside l) (isDir : d.IsDir l) :
      Lands s d (.directory l e)
  | name {dir : Location} {n : Name} {slash : Bool} (inside : s.Inside dir) (isDir : d.IsDir dir)
      (down : (Step.name n).IsDown) : Lands s d (.name dir n slash)
  | side (side : Side) {slash : Bool} : Lands s d (.name s.root side.name.toList slash)

/-- Two walks come out at the same, and inside; if they are strict, not at a side. -/
structure Meets (s : Site) (d : Disk) (strict : Prop) (r₁ r₂ : Except Errno Target) : Prop where
  same : r₁ = r₂
  lands : ∀ {target}, r₁ = .ok target → s.Lands d target
  inside : strict → ∀ {dir n slash}, r₁ = .ok (.name dir n slash) → s.Inside dir

namespace Meets

variable {d : Disk} {strict : Prop}

theorem error (fault : Errno) : s.Meets d strict (.error fault) (.error fault) :=
  ⟨rfl, nofun, nofun⟩

theorem name {dir : Location} {n : Name} {slash : Bool} (inside : s.Inside dir)
    (isDir : d.IsDir dir) (down : (Step.name n).IsDown) :
    s.Meets d strict (.ok (.name dir n slash)) (.ok (.name dir n slash)) :=
  ⟨rfl, fun h => by cases h; exact .name inside isDir down, fun _ _ _ _ h => by cases h; exact inside⟩

end Meets

/-- Why a path through the run root leads nowhere, if it does not. -/
def fault? (s : Site) (p : Path) : Option IoError :=
  if p.hasNul then some .nulInPath
  else if p.text.isEmpty then some (.os Errno.noEntry)
  else if pathLimit ≤ Text.byteLength p.text.toList then some (.os Errno.nameTooLong)
  else if linkLimit < s.links then some (.os Errno.tooManyLinks)
  else none

theorem Reached.found {d : Disk} (h : s.Reached d) : s.Found d := by
  have hpart : ∀ {l node}, (d.part s.Apart).node? l = some node →
      (d.part fun l => ¬ s.Below l).node? l = some node := by
    intro l node hl
    obtain ⟨hapart, hl⟩ := Disk.of_node?_part hl
    rw [Disk.node?_part, if_pos fun hb => hb.not_apart hapart, hl]
  exact ⟨h.tree, h.route.mono (fun _ => hpart) fun _ _ => hpart⟩

namespace Found

variable {d : Disk}

/-- Where there is no directory of the test yet, no way leads through it. -/
theorem of_route (tree : d.IsTree)
    (route : d.Route s.links (s.runRoot.startFrom d.workingDirectory) s.runRoot.steps s.home)
    (free : d.node? s.root = none) : s.Found d := by
  have hpart : ∀ {l node}, d.node? l = some node →
      (d.part fun l => ¬ s.Below l).node? l = some node := by
    intro l node hl
    rw [Disk.node?_part, if_pos, hl]
    intro hbelow
    by_cases heq : s.root = l
    · rw [← heq, free] at hl
      cases hl
    · rw [tree.node?_eq_none_of_prefix hbelow heq (Disk.not_isDir_of_free free)] at hl
      cases hl
  exact ⟨tree, route.mono (fun _ => hpart) fun _ _ => hpart⟩

/-- The way to the run root on the whole disk. -/
theorem wholeRoute (h : s.Found d) :
    d.Route s.links (s.runRoot.startFrom d.workingDirectory) s.runRoot.steps s.home :=
  h.route.of_part

/-- What a path leads to that goes on from the run root. -/
theorem target_eq (h : s.Found d) (last : LastLink) {p : Path} {rest : List Step}
    (habs : p.isAbsolute = s.runRoot.isAbsolute) (hsteps : p.steps = s.runRoot.steps ++ rest)
    (hrest : rest ≠ []) :
    d.target last p = match s.fault? p with
      | some fault => .error fault
      | none => (d.proceed last (linkLimit - s.links) p.endsInSlash s.home .here rest).mapError
          .os := by
  have hstart : p.startFrom d.workingDirectory = s.runRoot.startFrom d.workingDirectory := by
    rw [Path.startFrom, habs, Path.startFrom]
  unfold fault?
  rw [Disk.target_eq, hsteps, hstart]
  by_cases hnul : p.hasNul = true
  · rw [if_pos hnul, if_pos hnul]
  · by_cases hempty : p.text.isEmpty = true
    · rw [if_neg hnul, if_neg hnul, if_pos hempty, if_pos hempty]
    · by_cases hlong : pathLimit ≤ Text.byteLength p.text.toList
      · rw [if_neg hnul, if_neg hnul, if_neg hempty, if_neg hempty, if_pos hlong, if_pos hlong]
      · rw [if_neg hnul, if_neg hnul, if_neg hempty, if_neg hempty, if_neg hlong, if_neg hlong]
        by_cases hlinks : linkLimit < s.links
        · rw [if_pos hlinks, h.wholeRoute.proceed_short h.tree hrest hlinks]
          rfl
        · obtain ⟨j, hj⟩ := Nat.exists_eq_add_of_le (Nat.le_of_not_lt hlinks)
          rw [if_neg hlinks, hj, h.wholeRoute.proceed h.tree (f := .here) hrest,
            Nat.add_sub_cancel_left]

end Found

namespace Standing

variable {d d₁ d₂ : Disk} {last : LastLink} {links : Nat} {slash : Bool} {e : Ending}

theorem isDir_root (h : s.Standing d) : d.IsDir s.root :=
  h.tree.parent (Disk.node?_ne_none_of_eq (h.sides .lhs))

theorem isDir_home (h : s.Standing d) : d.IsDir s.home :=
  h.tree.parent (Disk.node?_ne_none_of_eq h.isDir_root)

/-- A walk along the run root, the test and a side. -/
theorem proceed_side (h : s.Standing d) (side : Side) (more : List Step) :
    d.proceed last links slash (s.runRoot.startFrom d.workingDirectory) e
      (s.runRoot.steps ++ .name s.name :: .name side.name.toList :: more) =
      if links < s.links then .error Errno.tooManyLinks
      else if more = [] then .ok (.name s.root side.name.toList slash)
      else d.proceed last (links - s.links) slash (s.side side) .here more := by
  split
  · next hlinks => exact h.wholeRoute.proceed_short h.tree (List.cons_ne_nil _ _) hlinks
  · next hlinks =>
    obtain ⟨j, rfl⟩ := Nat.exists_eq_add_of_le (Nat.le_of_not_lt hlinks)
    have hroot : d.Route 0 s.home [.name s.name] s.root := .single h.isDir_root
    have hside := h.sides side
    rw [Disk.IsDir, Site.side] at hside
    rw [h.wholeRoute.proceed h.tree (f := .here) (List.cons_ne_nil _ _),
      ← List.singleton_append, ← Nat.zero_add j,
      hroot.proceed h.tree (f := .here) (List.cons_ne_nil _ _), Disk.proceed_name,
      side.isName.short, if_neg Bool.false_ne_true, hside]
    by_cases hmore : more = []
    · subst hmore
      rw [if_pos rfl]
      exact ite_self _
    · rw [if_neg fun hend => hmore hend.1, Nat.zero_add, Nat.add_sub_cancel_left]
      simp only [if_neg hmore]
      rfl

/-- A walk that goes on from a side, along the run root and the test. -/
theorem walks_side (h : s.Standing d) {side : Side} {more : List Step} {target : Target}
    (walks : d.Walks last links slash (s.runRoot.startFrom d.workingDirectory) e
      (s.runRoot.steps ++ .name s.name :: .name side.name.toList :: more) target) :
    target = .name s.root side.name.toList slash ∨
      ∃ left, left ≤ links ∧ d.Walks last left slash (s.side side) .here more target := by
  have hproceed := walks.proceed
  rw [h.proceed_side] at hproceed
  split at hproceed
  · cases hproceed
  · split at hproceed
    · cases hproceed; exact .inl rfl
    · exact .inr ⟨links - s.links, Nat.sub_le _ _, Disk.walks_of_proceed hproceed⟩

/-- A walk along a path that leads inside, if it is known how a walk goes on from a side. -/
theorem meets_of_side (h₁ : s.Standing d₁) (h₂ : s.Standing d₂) (side : Side) (last : LastLink)
    (links : Nat) (slash : Bool) (e : Ending) (more : List Step) (strict : Prop)
    (hstrict : strict → more ≠ [])
    (onward : s.Meets d₁ strict
      (d₁.proceed last (links - s.links) slash (s.side side) .here more)
      (d₂.proceed last (links - s.links) slash (s.side side) .here more)) :
    s.Meets d₁ strict
      (d₁.proceed last links slash (s.runRoot.startFrom d₁.workingDirectory) e
        (s.runRoot.steps ++ .name s.name :: .name side.name.toList :: more))
      (d₂.proceed last links slash (s.runRoot.startFrom d₂.workingDirectory) e
        (s.runRoot.steps ++ .name s.name :: .name side.name.toList :: more)) := by
  rw [h₁.proceed_side, h₂.proceed_side]
  split
  · exact .error _
  · split
    · next hmore =>
      exact ⟨rfl, fun h => by cases h; exact .side side, fun h => absurd hmore (hstrict h)⟩
    · exact onward

/-- A walk from a directory inside along steps that do not lead up comes out the same on all disks
that look the same inside, and comes out inside. If it does not follow a link at the end, it does
not come out at a side. -/
theorem proceed_inside (h₁ : s.Standing d₁) (h₂ : s.Standing d₂)
    (alike : Disk.Alike false s.Inside d₁ d₂) {dir : Location} {steps : List Step}
    (inside : s.Inside dir) (isDir : d₁.IsDir dir) (hsteps : Descends steps) :
    s.Meets d₁ (last = .keep) (d₁.proceed last links slash dir e steps)
      (d₂.proceed last links slash dir e steps) := by
  induction links using Nat.strongRecOn generalizing slash dir e steps with
  | _ links ihl =>
  induction steps generalizing dir e with
  | nil => exact ⟨rfl, fun h => by cases h; exact .directory inside isDir, fun _ => nofun⟩
  | cons st rest ih =>
    have hst := hsteps st List.mem_cons_self
    cases st with
    | here => exact ih inside isDir hsteps.tail
    | up => exact hst.elim
    | name n =>
      have hin : s.Inside (dir ++ [n]) := inside.append [n]
      rw [Disk.proceed_name, Disk.proceed_name]
      split
      · exact .name inside isDir hst
      · next hend =>
        split
        · exact .error _
        · obtain ⟨hn₁, hn₂⟩ | ⟨hn₁, hn₂⟩ | ⟨i, j, bytes, hn₁, hn₂⟩ | ⟨target, hn₁, hn₂⟩ :=
            alike.node?_cases hin
          · simp only [hn₁, hn₂]
            split
            · exact .name inside isDir hst
            · exact .error _
          · rw [Disk.IsDir] at hn₂
            simp only [show d₁.node? (dir ++ [n]) = _ from hn₁, hn₂]
            split
            · exact .name inside isDir hst
            · exact ih hin hn₁ hsteps.tail
          · simp only [hn₁, hn₂]
            split
            · exact .name inside isDir hst
            · exact .error _
          · simp only [hn₁, hn₂]
            cases links with
            | zero => exact .error _
            | succ links =>
              have leads := h₁.enclosed hin hn₁
              obtain ⟨side, more, hmore, htarget⟩ := leads.steps
              have hall : target.steps ++ rest =
                  s.runRoot.steps ++ .name s.name :: .name side.name.toList :: (more ++ rest) := by
                rw [htarget, List.append_assoc]; rfl
              have hdown : Descends (more ++ rest) := hmore.append hsteps.tail
              cases habs : s.runRoot.isAbsolute with
              | true =>
                -- The way starts again at the root and comes back through the run root.
                have hmeets := h₁.meets_of_side h₂ side last links
                  (slash || (rest.isEmpty && target.endsInSlash)) .root (more ++ rest) (last = .keep)
                  (by
                    rintro rfl hnil
                    exact hend ⟨(List.append_eq_nil_iff.1 hnil).2, rfl⟩)
                  (ihl _ (by omega) (inside_side side) (h₁.sides side) hdown)
                rw [Path.startFrom_of_absolute habs, Path.startFrom_of_absolute habs] at hmeets
                rw [hall, Path.startFrom_of_absolute (leads.absolute.trans habs)]
                exact hmeets
              | false =>
                -- The way goes on below.
                rw [Path.startFrom_of_relative (leads.absolute.trans habs)]
                rw [hall]
                exact ihl links (Nat.lt_succ_self _) inside isDir (s.descends_side habs side hdown)

/-- A path that leads inside leads to the same on all disks that look the same inside. -/
theorem target_leads (h₁ : s.Standing d₁) (h₂ : s.Standing d₂)
    (alike : Disk.Alike false s.Inside d₁ d₂) {p : Path} (hp : s.Leads p) :
    d₁.target last p = d₂.target last p ∧
      ∀ {target}, d₁.target last p = .ok target → s.Lands d₁ target := by
  obtain ⟨side, more, hmore, hsteps⟩ := hp.steps
  have hstart : ∀ wd, p.startFrom wd = s.runRoot.startFrom wd := fun wd => by
    rw [Path.startFrom, hp.absolute, Path.startFrom]
  have hmeets := h₁.meets_of_side h₂ side last linkLimit p.endsInSlash .root more False False.elim
    { h₁.proceed_inside h₂ alike (inside_side side) (h₁.sides side) hmore with
      inside := False.elim }
  rw [← hsteps, ← hstart, ← hstart] at hmeets
  rw [Disk.target_eq, Disk.target_eq]
  split
  · exact ⟨rfl, fun {_} h => by cases h⟩
  · split
    · exact ⟨rfl, fun {_} h => by cases h⟩
    · split
      · exact ⟨rfl, fun {_} h => by cases h⟩
      · refine ⟨congrArg _ hmeets.same, fun {target} htarget => ?_⟩
        cases hproceed : d₁.proceed last linkLimit p.endsInSlash
            (p.startFrom d₁.workingDirectory) .root p.steps with
        | error fault => rw [hproceed] at htarget; cases htarget
        | ok t => rw [hproceed] at htarget; cases htarget; exact hmeets.lands hproceed

/-- A path that leads on from a side leads to a name in a directory inside, unless it leads to a
directory. -/
theorem target_enters (h : s.Standing d) {p : Path} (hp : s.Enters p) {dir : Location} {n : Name}
    {slash : Bool} (htarget : d.target .keep p = .ok (.name dir n slash)) : s.Inside dir := by
  obtain ⟨side, more, hmore, hne, hsteps⟩ := hp.steps
  have hstart : p.startFrom d.workingDirectory = s.runRoot.startFrom d.workingDirectory := by
    rw [Path.startFrom, hp.absolute, Path.startFrom]
  have hmeets := h.meets_of_side h side .keep linkLimit p.endsInSlash .root more
    (LastLink.keep = .keep) (fun _ => hne)
    (h.proceed_inside h (.refl d) (inside_side side) (h.sides side) hmore)
  rw [← hsteps, ← hstart] at hmeets
  rw [Disk.target_eq] at htarget
  split at htarget
  · cases htarget
  · split at htarget
    · cases htarget
    · split at htarget
      · cases htarget
      · cases hproceed : d.proceed .keep linkLimit p.endsInSlash
            (p.startFrom d.workingDirectory) .root p.steps with
        | error fault => rw [hproceed] at htarget; cases htarget
        | ok t => rw [hproceed] at htarget; cases htarget; exact hmeets.inside rfl hproceed

end Standing

end Site

end TwinTrees
