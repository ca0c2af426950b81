import TwinTrees.Proofs.Disk.Kind
import TwinTrees.Proofs.Site.Home
import TwinTrees.Proofs.Site.Parent
import TwinTrees.Proofs.Site.Sided
import TwinTrees.Proofs.Triple

/-!
# Paths that name entries of a side

The paths that a walk down a side visits go by the run root, the test, the side and the names of the
entries on the way (`Site.Marks`). No link is followed along such a path, except one at its end, so
whatever is found there is the entry of these names.
-/

namespace TwinTrees

namespace Site

variable {ε : Type} {s : Site} {d : Disk} {side : Side} {more : Location} {n : Name} {p q : Path}
  {mode : Mode} {last : LastLink} {target : Target}

/-- The path goes by the run root, the test and the side, and then down these names. -/
structure Marks (s : Site) (side : Side) (more : Location) (p : Path) : Prop where
  absolute : p.isAbsolute = s.runRoot.isAbsolute
  steps : p.steps = s.runRoot.steps ++ (s.name :: side.name.toList :: more).map Step.name
  named : ∀ n ∈ more, IsName n

theorem home_append_names (s : Site) (side : Side) (more : Location) :
    s.home ++ (s.name :: side.name.toList :: more) = s.side side ++ more := by
  simp [Site.side, root]

namespace Marks

theorem isName_of_mem (hp : s.Marks side more p) :
    ∀ m ∈ s.name :: side.name.toList :: more, IsName m := by
  intro m hm
  obtain rfl | hm := List.mem_cons.1 hm
  · exact s.isName
  · obtain rfl | hm := List.mem_cons.1 hm
    · exact side.isName
    · exact hp.named m hm

theorem leadsTo (hp : s.Marks side more p) : s.LeadsTo side p :=
  ⟨hp.absolute, more.map .name, .names more hp.named, hp.steps⟩

theorem inside (hp : s.Marks side more p) (hn : IsName n) :
    s.Marks side (more ++ [n]) (Tree.inside p n) where
  absolute := (Path.isAbsolute_join (Path.isAbsolute_name hn.noSlash)).trans hp.absolute
  steps := by
    rw [Tree.inside, Path.steps_join (Path.isAbsolute_name hn.noSlash), hp.steps,
      Path.steps_name hn]
    simp
  named m hm := by
    obtain hm | hm := List.mem_append.1 hm
    · exact hp.named m hm
    · exact List.mem_singleton.1 hm ▸ hn

/-- A slash at the end does not change which entry the path names. -/
theorem withSlash (hp : s.Marks side more p) : s.Marks side more (p.join ⟨""⟩) where
  absolute := (Path.isAbsolute_join rfl).trans hp.absolute
  steps := (Path.steps_withSlash p).trans hp.steps
  named := hp.named

theorem parent (hp : s.Marks side (more ++ [n]) p) (hq : p.parent? = some q) :
    s.Marks side more q where
  absolute := (Path.isAbsolute_parent hq).trans hp.absolute
  steps := by
    obtain ⟨before, st, after, hsteps, hbefore, hafter, -⟩ := Path.steps_parent hq
    have hall : (s.runRoot.steps ++ (s.name :: side.name.toList :: more).map Step.name) ++
        [.name n] = ((q.steps ++ before) ++ [st]) ++ after := by
      rw [List.append_assoc _ [st], List.singleton_append, ← hsteps, hp.steps]
      simp
    obtain rfl := eq_nil_of_heres hall hafter
    rw [List.append_nil] at hall
    obtain ⟨hfront, -⟩ := List.append_inj' hall rfl
    obtain ⟨names, m, hnames⟩ : ∃ names m, s.name :: side.name.toList :: more = names ++ [m] :=
      ⟨_, _, (List.dropLast_append_getLast (List.cons_ne_nil _ _)).symm⟩
    rw [hnames, List.map_append, ← List.append_assoc] at hfront
    obtain rfl := eq_nil_of_heres hfront hbefore
    rw [hnames, List.map_append, ← List.append_assoc]
    simpa using hfront.symm
  named m hm := hp.named m (List.mem_append_left _ hm)

/-- The path leads to a name in a directory in the run root. -/
theorem places (hp : s.Marks side more p) :
    ∃ names m, s.Places p names m ∧ s.home ++ names ++ [m] = s.side side ++ more := by
  obtain ⟨names, m, hnames⟩ : ∃ names m, s.name :: side.name.toList :: more = names ++ [m] :=
    ⟨_, _, (List.dropLast_append_getLast (List.cons_ne_nil _ _)).symm⟩
  refine ⟨names, m, ⟨hp.absolute, ?_, fun x hx => hp.isName_of_mem x ?_⟩, ?_⟩
  · rw [hp.steps, hnames, List.map_append]
    rfl
  · rw [hnames]
    exact List.mem_append_left _ hx
  · rw [List.append_assoc, ← hnames, home_append_names]

/-- The path leads to a name in the directory of the names before it. -/
theorem placesLast (hp : s.Marks side (more ++ [n]) p) :
    s.Places p (s.name :: side.name.toList :: more) n where
  absolute := hp.absolute
  steps := by
    rw [hp.steps]
    simp
  named m hm := by
    refine hp.isName_of_mem m ?_
    rw [← List.cons_append, ← List.cons_append]
    exact List.mem_append_left _ hm

/-- Where something is, the path leads, unless it is a link that is followed. -/
theorem location_eq (hp : s.Marks side more p) (h : s.Found d)
    (there : d.node? (s.side side ++ more) ≠ none)
    (hlink : last = .keep ∨ ∀ old, d.node? (s.side side ++ more) ≠ some (.symlink old))
    (htarget : d.target last p = .ok target) : target.location = s.side side ++ more := by
  obtain ⟨names, m, places, hloc⟩ := hp.places
  rw [← hloc] at there hlink ⊢
  rw [places.target h (h.tree.parent there) (h.tree.named there).short hlink] at htarget
  split at htarget
  · cases htarget
  · cases htarget; rfl

/-- What the path leads to where nothing is. -/
theorem target_eq_of_free (hp : s.Marks side (more ++ [n]) p) (h : s.Found d)
    (isDir : d.IsDir (s.side side ++ more)) (free : d.node? (s.side side ++ (more ++ [n])) = none)
    (htarget : d.target last p = .ok target) :
    target = .name (s.side side ++ more) n p.endsInSlash := by
  rw [← List.append_assoc, ← home_append_names] at free
  rw [← home_append_names] at isDir ⊢
  rw [hp.placesLast.target_free h isDir (hp.named n (by simp)).short free] at htarget
  split at htarget
  · cases htarget
  · cases htarget; rfl

/-- What is found without following a link. -/
theorem get?_of_find (hp : s.Marks side more p) (h : s.Found d) {follow : Bool}
    (there : d.node? (s.side side ++ more) ≠ none)
    (hlink : follow = false ∧ p.endsInSlash = false ∨
      ∀ old, d.node? (s.side side ++ more) ≠ some (.symlink old)) {l : Location} {e : Entry}
    (hfind : d.find follow p = .ok (l, e)) :
    l = s.side side ++ more ∧ d.get? (s.side side ++ more) = some e := by
  obtain ⟨target, htarget, rfl, hget⟩ := Disk.of_find hfind
  have hlast : (if follow || p.endsInSlash then LastLink.follow else .keep) = .keep ∨
      ∀ old, d.node? (s.side side ++ more) ≠ some (.symlink old) := by
    refine hlink.imp_left ?_
    rintro ⟨rfl, hslash⟩
    rw [hslash]
    rfl
  have hloc := hp.location_eq h there hlast htarget
  exact ⟨hloc, hloc ▸ hget⟩

/-- What is listed is what is in the directory. -/
theorem lists (hp : s.Marks side more p) (h : s.Found d) (isDir : d.IsDir (s.side side ++ more))
    {names : List (Name × Kind)} (hlist : d.list p = .ok names) :
    d.Lists (s.side side ++ more) names := by
  obtain ⟨l, e, hfind, -, rfl⟩ := Disk.of_list hlist
  obtain ⟨rfl, -⟩ := hp.get?_of_find h (Disk.node?_ne_none_of_eq isDir) (.inr isDir.ne_symlink)
    hfind
  exact h.tree.lists _

/-! ## Making directories along such paths -/

variable {P Q : Disk → Prop}

theorem steps_ne_nil (hp : s.Marks side more p) : p.steps ≠ [] := by
  rw [hp.steps]
  simp

theorem nonempty (hp : s.Marks side more p) : p.text.isEmpty = false := by
  have hname : Step.name s.name ∈ p.steps := by
    rw [hp.steps]
    simp
  exact Path.text_isEmpty_eq_false hname

/-- Where something is, making a directory and those above it changes nothing. -/
theorem makeDirectories_there (hp : s.Marks side more p)
    (hP : ∀ d, P d → s.Found d ∧ d.node? (s.side side ++ more) ≠ none) :
    Action.Triple P (Tree.makeDirectories p mode) fun _ => P := by
  intro w x w' hw hrun
  obtain ⟨found, there⟩ := hP _ hw
  obtain ⟨names, m, places, hloc⟩ := hp.places
  rw [Tree.makeDirectories_of_fault hp.nonempty
    (places.makeDirectory_there found (by rw [hloc]; exact there))
    (thereFault_ne_noEntry hp.steps_ne_nil)] at hrun
  rw [(Prod.mk.inj hrun).2.symm]
  exact hw

/-- In a directory in which there is no such name, one directory is made. -/
theorem makeDirectories_free (hp : s.Marks side (more ++ [n]) p)
    (hP : ∀ d, P d → s.Found d ∧ d.IsDir (s.side side ++ more) ∧
      d.node? (s.side side ++ (more ++ [n])) = none)
    (hQ : ∀ t d, P d → Q (d.addEntry t (s.side side ++ more) n .directory
      (d.directoryMode (s.side side ++ more) mode))) :
    Action.Triple P (Tree.makeDirectories p mode) fun _ => Q := by
  intro w x w' hw hrun
  obtain ⟨found, isDir, free⟩ := hP _ hw
  have hQ := hQ (Action.time w) _ hw
  have places := hp.placesLast
  rw [← List.append_assoc, ← home_append_names] at free
  rw [← home_append_names] at isDir hQ
  have hshort := (hp.named n (by simp)).short
  have hmake : w.disk.makeDirectory (Action.time w) p mode = _ :=
    places.makeDirectory found isDir hshort free mode
  cases hfault : s.fault? p with
  | none =>
    rw [hfault] at hmake
    rw [Tree.makeDirectories_of_made hp.nonempty hmake] at hrun
    cases hrun
    exact hQ
  | some fault =>
    rw [hfault] at hmake
    rw [Tree.makeDirectories_of_fault hp.nonempty hmake
        (fun heq => fault?_ne_noEntry (s := s) hp.steps_ne_nil (heq ▸ hfault)),
      places.isDirectory_of_fault found isDir hshort free hfault] at hrun
    cases hrun

end Marks

end Site

end TwinTrees
