import TwinTrees.Proofs.Site.Change

/-!
# Around the directory of a test

A disk is `Ready` for a test if the run root is there; then its directory can be made, if there is
none. What a test does to the disk from then on stays below its directory, except that the run root
is modified when the directory is made and when it is removed. `Site.Stays` says so; it is what
other tests in the same run root can rely on.
-/

namespace TwinTrees.Site

variable {s : Site} {d d' d'' : Disk} {p : Path} {l dir : Location} {n : Name} {now : Time}
  {last : LastLink} {names : Location}

theorem fault?_eq_none_iff : s.fault? p = none ↔ p.IsValid ∧ s.links ≤ linkLimit := by
  unfold fault?
  constructor
  · intro h
    split at h
    · cases h
    · next hnul =>
      split at h
      · cases h
      · next hempty =>
        split at h
        · cases h
        · next hlong =>
          split at h
          · cases h
          · next hlinks =>
            exact ⟨⟨Bool.eq_false_iff.2 hnul, Bool.eq_false_iff.2 hempty, Nat.lt_of_not_le hlong⟩,
              Nat.le_of_not_lt hlinks⟩
  · rintro ⟨⟨hnul, hempty, hshort⟩, hlinks⟩
    rw [hnul, if_neg Bool.false_ne_true, hempty, if_neg Bool.false_ne_true,
      if_neg (Nat.not_le_of_lt hshort), if_neg (Nat.not_lt_of_le hlinks)]

/-- The path of the run root leads to the same place on all disks that look the same apart from what
is in it. -/
theorem Reached.of_alike (h : s.Reached d) (tree : d'.IsTree)
    (alike : Disk.Alike false s.Apart d d') : s.Reached d' where
  tree := tree
  route := by
    rw [← alike.workingDirectory]
    exact h.route.of_alike alike fun _ => id

/-- A disk with the run root in place. -/
structure Ready (s : Site) (d : Disk) : Prop extends s.Reached d where
  isDir : d.IsDir s.home
  named : s.fault? s.runRoot = none

namespace Ready

theorem isDirectory (h : s.Ready d) : d.isDirectory s.runRoot = true :=
  have hnamed := fault?_eq_none_iff.1 h.named
  (Disk.isDirectory_iff h.tree).2 ⟨s.home, ⟨hnamed.1, s.links, hnamed.2, h.found.wholeRoute⟩,
    h.isDir⟩

/-- The run root is in its place on all disks that look the same apart from it. -/
theorem of_alike (h : s.Ready d) (tree : d'.IsTree) (alike : Disk.Alike false s.Apart d d') :
    s.Ready d' where
  toReached := h.toReached.of_alike tree alike
  isDir := alike.isDir s.home_apart h.isDir
  named := h.named

end Ready

/-! ## What stays -/

/-- The location is the directory of the test, below it, or the run root. -/
def Near (s : Site) (l : Location) : Prop := s.Below l ∨ l = s.home

instance : DecidablePred s.Near := fun _ => inferInstanceAs (Decidable (_ ∨ _))

/-- The disk has changed below the directory of the test only, except that the run root may have
been modified. -/
structure Stays (s : Site) (d d' : Disk) : Prop where
  tree : d'.IsTree
  off : Disk.SameOff s.Near d d'
  apart : Disk.Alike false s.Apart d d'
  home : ∀ e, d.get? s.home = some e → ∃ t, d'.get? s.home = some { e with modified := t }

namespace Stays

theorem refl (tree : d.IsTree) : s.Stays d d := ⟨tree, .refl d, .refl d, fun e he => ⟨e.modified, he⟩⟩

theorem trans (h : s.Stays d d') (h' : s.Stays d' d'') : s.Stays d d'' where
  tree := h'.tree
  off := h.off.trans h'.off
  apart := h.apart.trans h'.apart
  home e he := by
    obtain ⟨t, ht⟩ := h.home e he
    obtain ⟨t', ht'⟩ := h'.home _ ht
    exact ⟨t', ht'⟩

theorem below_home : ¬ s.Below s.home := fun h => h.not_apart s.home_apart

/-- Off the directory of the test there is what there was. -/
theorem node? (h : s.Stays d d') (hl : ¬ s.Below l) {node : Node} (hnode : d.node? l = some node) :
    d'.node? l = some node := by
  by_cases hhome : l = s.home
  · subst hhome
    obtain ⟨e, he, rfl⟩ := Disk.node?_eq_some_iff.1 hnode
    obtain ⟨t, ht⟩ := h.home e he
    rw [Disk.node?_of_get? ht]
  · exact (h.off.node? fun hnear => hnear.elim hl hhome).trans hnode

/-- The way to the run root is still there. -/
theorem found (h : s.Stays d d') (found : s.Found d) : s.Found d' where
  tree := h.tree
  route := by
    have hpart : ∀ {l node}, (d.part fun l => ¬ s.Below l).node? l = some node →
        (d'.part fun l => ¬ s.Below l).node? l = some node := by
      intro l node hl
      obtain ⟨hbelow, hl⟩ := Disk.of_node?_part hl
      rw [Disk.node?_part, if_pos hbelow, h.node? hbelow hl]
    rw [h.off.workingDirectory]
    exact found.route.mono (fun _ => hpart) fun _ _ => hpart

/-- What changes below the directory of the test only stays so. -/
theorem ofBelow (tree : d'.IsTree) (h : Disk.SameOff s.Below d d') : s.Stays d d' where
  tree := tree
  off := h.mono fun _ => .inl
  apart := h.alike fun _ hl hb => hb.not_apart hl
  home e he := ⟨e.modified, (h.get? below_home).trans he⟩

theorem addEntry {node : Node} {mode : Mode} (tree : (d.addEntry now dir n node mode).IsTree)
    (hdir : s.Near dir) (hn : s.Below (dir ++ [n])) : s.Stays d (d.addEntry now dir n node mode) := by
  obtain hdir | rfl := hdir
  · exact .ofBelow tree (.addEntry hdir hn)
  · have hput : Disk.SameOff s.Below d (d.put (s.home ++ [n]) ⟨node, mode, now, now⟩) := .put hn _
    exact {
      tree := tree
      off := .addEntry (.inr rfl) (.inl hn)
      apart := Disk.Alike.trans (hput.alike fun _ hl hb => hb.not_apart hl) (.touched _ _ _)
      home := fun e he => ⟨now, by
        rw [Disk.addEntry, Disk.get?_touch, if_pos rfl, hput.get? below_home, he]
        rfl⟩ }

theorem removeRoot (tree : (d.removeEntry now s.home s.name).IsTree) :
    s.Stays d (d.removeEntry now s.home s.name) := by
  have herase : Disk.SameOff s.Below d (d.erase s.root) := .erase List.prefix_rfl
  exact {
    tree := tree
    off := .removeEntry (.inr rfl) (.inl List.prefix_rfl)
    apart := Disk.Alike.trans (herase.alike fun _ hl hb => hb.not_apart hl) (.touched _ _ _)
    home := fun e he => ⟨now, by
      show ((d.erase s.root).touch s.home now).get? s.home = _
      rw [Disk.get?_touch, if_pos rfl, herase.get? below_home, he]
      rfl⟩ }

end Stays

/-! ## What is at the end of a path -/

/-- The path leads to a name in a directory in the run root. -/
structure Places (s : Site) (p : Path) (names : Location) (n : Name) : Prop where
  absolute : p.isAbsolute = s.runRoot.isAbsolute
  steps : p.steps = s.runRoot.steps ++ (names.map Step.name ++ [.name n])
  named : ∀ m ∈ names, IsName m

/-- The directory of the test is in the run root itself. -/
theorem home_append (s : Site) : s.home ++ [] ++ [s.name] = s.root := by
  rw [List.append_nil]
  rfl

namespace Places

/-- Where such a path leads, if no link is followed at its end. -/
theorem target (hp : s.Places p names n) (h : s.Found d) (hdir : d.IsDir (s.home ++ names))
    (hn : isTooLong n = false)
    (hlink : last = .keep ∨ ∀ target, d.node? (s.home ++ names ++ [n]) ≠ some (.symlink target)) :
    d.target last p = match s.fault? p with
      | some fault => .error fault
      | none => .ok (.name (s.home ++ names) n p.endsInSlash) := by
  rw [h.target_eq last hp.absolute hp.steps (by simp)]
  cases s.fault? p with
  | some fault => rfl
  | none =>
    have hthere : d.IsDir (s.home ++ stepNames (names.map .name)) := by rwa [stepNames_map_name]
    have hroute := Disk.Route.descend_of_isDir h.tree (Descends.names names hp.named) hthere
    rw [stepNames_map_name] at hroute
    simp only
    rw [← Nat.zero_add (linkLimit - s.links),
      hroute.proceed h.tree (f := .here) (List.cons_ne_nil _ _), Disk.proceed_name, hn,
      if_neg Bool.false_ne_true]
    split
    · rfl
    · next hend =>
      split
      · rfl
      · next target hnode =>
        obtain rfl | hlink := hlink
        · exact absurd ⟨rfl, rfl⟩ hend
        · exact absurd hnode (hlink target)
      · rfl
      · rfl

/-- Where something is, nothing is made. -/
theorem makeDirectory_there (hp : s.Places p names n) (h : s.Found d) {mode : Mode}
    (there : d.node? (s.home ++ names ++ [n]) ≠ none) :
    d.makeDirectory now p mode = .error ((s.fault? p).getD (.os Errno.alreadyExists)) := by
  have hshort := (h.tree.named there).short
  have htarget := hp.target h (h.tree.parent there) hshort (.inl (rfl : LastLink.keep = .keep))
  cases hfault : s.fault? p with
  | some fault =>
    rw [hfault] at htarget
    unfold Disk.makeDirectory
    rw [htarget]
    rfl
  | none =>
    rw [hfault] at htarget
    refine Disk.makeDirectory_of_there htarget ?_
    rintro _ _ _ ⟨⟩
    exact ⟨hshort, there⟩

/-- Nothing is made at a path that cannot be followed. -/
theorem makeDirectory_of_fault (hp : s.Places p names n) (h : s.Found d) (now : Time) (mode : Mode)
    {fault : IoError} (hfault : s.fault? p = some fault) :
    d.makeDirectory now p mode = .error fault := by
  unfold Disk.makeDirectory
  rw [h.target_eq _ hp.absolute hp.steps (by simp), hfault]
  rfl

theorem steps_ne_nil (hp : s.Places p names n) : p.steps ≠ [] := by
  rw [hp.steps]
  simp

/-- What a path names that leads to a directory. -/
theorem find (hp : s.Places p names n) (h : s.Found d) (hn : isTooLong n = false) {e : Entry}
    (hget : d.get? (s.home ++ names ++ [n]) = some e) (hdir : e.node = .directory)
    (hvalid : s.fault? p = none) (follow : Bool) :
    d.find follow p = .ok (s.home ++ names ++ [n], e) := by
  have hnode := Disk.node?_of_get? hget
  refine Disk.find_eq_ok_iff.2 ⟨.name (s.home ++ names) n p.endsInSlash, ?_, rfl, hget, ?_⟩
  · rw [hp.target h (h.tree.parent (n := n) (Disk.node?_ne_none_of_eq hnode)) hn
      (.inr (Disk.IsDir.ne_symlink (Disk.isDir_of_get? hget hdir))), hvalid]
  · rintro _ _ _ ⟨⟩
    exact ⟨hn, fun _ => hdir⟩

/-- The way to a directory in the run root. -/
theorem leads (hp : s.Places p names n) (h : s.Found d) (hn : IsName n)
    (isDir : d.IsDir (s.home ++ names ++ [n])) (valid : s.fault? p = none) :
    d.Names p (s.home ++ names ++ [n]) := by
  obtain ⟨hvalid, hlinks⟩ := fault?_eq_none_iff.1 valid
  refine ⟨hvalid, s.links + 0, hlinks, ?_⟩
  have hstart : p.startFrom d.workingDirectory = s.runRoot.startFrom d.workingDirectory := by
    rw [Path.startFrom, hp.absolute, Path.startFrom]
  have hdown : Descends ((names ++ [n]).map Step.name) := Descends.names _ fun m hm => by
    obtain hm | hm := List.mem_append.1 hm
    · exact hp.named m hm
    · exact List.mem_singleton.1 hm ▸ hn
  have hthere : d.IsDir (s.home ++ stepNames ((names ++ [n]).map .name)) := by
    rwa [stepNames_map_name, ← List.append_assoc]
  have hroute := Disk.Route.descend_of_isDir h.tree hdown hthere
  rw [stepNames_map_name, List.map_append, ← List.append_assoc] at hroute
  rw [hstart, hp.steps]
  exact h.wholeRoute.append hroute

variable (hp : s.Places p names n) (h : s.Found d) (hdir : d.IsDir (s.home ++ names))
  (hn : isTooLong n = false) (free : d.node? (s.home ++ names ++ [n]) = none)
include hp h hdir hn free

theorem target_free : d.target last p = match s.fault? p with
      | some fault => .error fault
      | none => .ok (.name (s.home ++ names) n p.endsInSlash) :=
  hp.target h hdir hn (.inr (by rw [free]; nofun))

/-- Nothing is found where nothing is. -/
theorem lookAt_of_free {x : Location × Entry} : d.lookAt p ≠ .ok x := by
  intro hlook
  obtain ⟨target, htarget, hlocation, hget⟩ := Disk.of_find hlook
  rw [hp.target_free h hdir hn free] at htarget
  cases hfault : s.fault? p with
  | some fault => rw [hfault] at htarget; cases htarget
  | none =>
    rw [hfault] at htarget
    cases htarget
    rw [← hlocation, Target.location, Disk.node?_eq_none_iff.1 free] at hget
    cases hget

/-- Making a directory where nothing is. -/
theorem makeDirectory (mode : Mode) :
    d.makeDirectory now p mode = match s.fault? p with
      | some fault => .error fault
      | none => .ok (d.addEntry now (s.home ++ names) n .directory
          (d.directoryMode (s.home ++ names) mode)) := by
  unfold Disk.makeDirectory
  rw [hp.target_free h hdir hn free]
  cases s.fault? p with
  | some fault => rfl
  | none =>
    simp only [bind, Except.bind, Disk.child?_of_short hn,
      Disk.node?_eq_none_iff.1 free, Except.mapError]
    rfl

/-- Nothing is named by a path that cannot be followed. -/
theorem isDirectory_of_fault {fault : IoError} (hfault : s.fault? p = some fault) :
    d.isDirectory p = false := by
  unfold Disk.isDirectory Disk.find
  rw [hp.target_free h hdir hn free, hfault]
  rfl

theorem openOrCreate (hslash : p.endsInSlash = false) (mode : Mode) (truncate : Bool) :
    d.openOrCreate now p mode truncate = match s.fault? p with
      | some fault => .error fault
      | none => .ok (⟨s.home ++ names ++ [n], d.nextId⟩, d.addFile now (s.home ++ names) n mode) := by
  unfold Disk.openOrCreate
  rw [hp.target_free h hdir hn free]
  cases s.fault? p with
  | some fault => rfl
  | none =>
    simp only [bind, Except.bind, Disk.child?_of_short hn, hslash,
      Disk.node?_eq_none_iff.1 free, Except.mapError]
    rfl

end Places

end TwinTrees.Site
