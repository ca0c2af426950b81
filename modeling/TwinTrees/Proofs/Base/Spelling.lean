import TwinTrees.Proofs.Disk.Removal
import TwinTrees.Proofs.Disk.Success
import TwinTrees.Tree.Walk

/-!
# Paths that go down from a directory

A `Base` is a directory with a path that leads to it. A path that goes by the path of the base and
then down names (`Base.Spells`) comes to the entry of these names, if there is one or may be one
there, unless there is a link on its way (`Base.Spells.comes`). Steps that stay where they are, as in
`a/./b/.`, do not change which names a path spells; at its end such a step follows a link, as a slash
does.
-/

namespace TwinTrees

/-! ## Steps that stay where they are -/

/-- The steps that lead elsewhere. -/
def withoutHere (steps : List Step) : List Step := steps.filter (· ≠ .here)

section Steps

variable {steps steps' : List Step}

theorem withoutHere_append (steps steps' : List Step) :
    withoutHere (steps ++ steps') = withoutHere steps ++ withoutHere steps' :=
  List.filter_append ..

theorem withoutHere_up (steps : List Step) :
    withoutHere (.up :: steps) = .up :: withoutHere steps := rfl

theorem withoutHere_name (n : Name) (steps : List Step) :
    withoutHere (.name n :: steps) = .name n :: withoutHere steps := rfl

theorem withoutHere_eq_nil_iff : withoutHere steps = [] ↔ ∀ st ∈ steps, st = .here := by
  simp [withoutHere]

theorem of_withoutHere_eq_cons {st : Step} {rest : List Step} (h : withoutHere steps = st :: rest) :
    ∃ before after, steps = before ++ st :: after ∧ (∀ x ∈ before, x = .here) ∧
      withoutHere after = rest := by
  obtain ⟨before, after, hsteps, hbefore, -, hafter⟩ := List.filter_eq_cons_iff.1 h
  exact ⟨before, after, hsteps, by simpa using hbefore, hafter⟩

theorem withoutHere_map_name (names : Location) :
    withoutHere (names.map .name) = names.map .name := by
  simp [withoutHere]

theorem Descends.withoutHere_eq (h : Descends steps) :
    withoutHere steps = (stepNames steps).map .name := by
  induction steps with
  | nil => rfl
  | cons st rest ih =>
    specialize ih h.tail
    cases st with
    | here => exact ih
    | up => exact (h .up List.mem_cons_self).elim
    | name n => exact congrArg (Step.name n :: ·) ih

end Steps

namespace Disk

variable {d : Disk} {last : LastLink} {links k : Nat} {slash : Bool} {cur l more : Location}
  {e : Ending} {steps steps' : List Step} {target : Target}

theorem Route.heres {before : List Step} (h : ∀ st ∈ before, st = .here)
    (r : d.Route k cur steps l) : d.Route k cur (before ++ steps) l := by
  induction before with
  | nil => exact r
  | cons st before ih =>
    obtain rfl := h st List.mem_cons_self
    exact .here (ih fun st hst => h st (List.mem_cons_of_mem _ hst))

/-- A way is one along all steps that differ in those only that stay where they are. -/
theorem Route.congr (r : d.Route k cur steps l) (h : withoutHere steps' = withoutHere steps) :
    d.Route k cur steps' l := by
  induction r generalizing steps' with
  | @nil cur =>
    have hnil : d.Route 0 cur [] cur := .nil
    have hheres := hnil.heres (withoutHere_eq_nil_iff.1 h)
    rwa [List.append_nil] at hheres
  | here _ ih => exact ih h
  | up _ ih =>
    obtain ⟨before, after, rfl, hbefore, hafter⟩ := of_withoutHere_eq_cons h
    exact .heres hbefore (.up (ih hafter))
  | directory isDir _ ih =>
    obtain ⟨before, after, rfl, hbefore, hafter⟩ := of_withoutHere_eq_cons h
    exact .heres hbefore (.directory isDir (ih hafter))
  | link isLink _ ih =>
    obtain ⟨before, after, rfl, hbefore, hafter⟩ := of_withoutHere_eq_cons h
    refine .heres hbefore (.link isLink (ih ?_))
    rw [withoutHere_append, withoutHere_append]
    exact congrArg _ hafter

/-- Where a walk down names has come to: the entry of these names, found as a directory or as a name
in one. -/
inductive Comes (d : Disk) (cur more : Location) (slash : Bool) : Target → Prop
  | directory {e : Ending} (isDir : d.IsDir (cur ++ more)) :
      Comes d cur more slash (.directory (cur ++ more) e)
  | name {above : Location} {n : Name} (split : more = above ++ [n]) (isDir : d.IsDir (cur ++ above)) :
      Comes d cur more slash (.name (cur ++ above) n slash)

theorem Comes.here (isDir : d.IsDir cur) : d.Comes cur [] slash (.directory cur e) := by
  have hcur := isDir
  rw [← List.append_nil cur] at hcur
  have hcomes : d.Comes cur [] slash (.directory (cur ++ []) e) := .directory hcur
  rwa [List.append_nil] at hcomes

theorem Comes.child {n : Name} (isDir : d.IsDir cur) : d.Comes cur [n] slash (.name cur n slash) := by
  have hcur := isDir
  rw [← List.append_nil cur] at hcur
  have hcomes : d.Comes cur [n] slash (.name (cur ++ []) n slash) := .name rfl hcur
  rwa [List.append_nil] at hcomes

theorem Comes.below {n : Name} (h : d.Comes (cur ++ [n]) more slash target) :
    d.Comes cur (n :: more) slash target := by
  cases h with
  | directory isDir =>
    rw [← List.append_cons] at isDir ⊢
    exact .directory isDir
  | name split isDir =>
    rw [← List.append_cons] at isDir ⊢
    exact .name (by rw [split]; rfl) isDir

theorem Comes.location_eq (h : d.Comes cur more slash target) : target.location = cur ++ more := by
  cases h with
  | directory => rfl
  | name split => rw [split, ← List.append_assoc]; rfl

/-- No link is on the way down, its end apart. -/
def OpenWay (d : Disk) (cur more : Location) : Prop :=
  ∀ m, m <+: more → m ≠ [] → m ≠ more → ∀ old, d.node? (cur ++ m) ≠ some (.symlink old)

theorem OpenWay.tail {n : Name} (h : d.OpenWay cur (n :: more)) : d.OpenWay (cur ++ [n]) more := by
  intro m hm hne hend old
  rw [← List.append_cons]
  exact h (n :: m) ((List.prefix_cons_inj n).2 hm) (List.cons_ne_nil _ _)
    (fun heq => hend (List.cons.inj heq).2) old

/-- The way to what is there is open. -/
theorem IsTree.openWay (t : d.IsTree) (there : d.node? (cur ++ more) ≠ none) :
    d.OpenWay cur more := by
  intro m hm _ hend old hold
  have isDir := t.isDir_of_prefix ((List.prefix_append_right_inj cur).2 hm)
    (fun heq => hend (List.append_cancel_left heq)) there
  rw [IsDir, hold] at isDir
  cases isDir

/-- The last of some steps, of which there is more than one. -/
theorem last_of_cons {st : Step} {rest : List Step} (hrest : rest ≠ [])
    (h : ∃ n, (st :: rest).getLast? = some (.name n)) : ∃ n, rest.getLast? = some (.name n) := by
  obtain ⟨st', rest, rfl⟩ := List.exists_cons_of_ne_nil hrest
  rwa [List.getLast?_cons_cons] at h

theorem eq_singleton_of_withoutHere {n : Name} (h : withoutHere [.name n] = more.map .name) :
    more = [n] := by
  rw [withoutHere_name] at h
  obtain ⟨m, more, rfl, hst, hnil⟩ := List.map_eq_cons_iff.1 h.symm
  rw [Step.name.inj hst, List.map_eq_nil_iff.1 hnil]

/-- A walk down names comes to them if it meets no link, except one at its end that it does not
follow. -/
theorem Walks.down (h : d.Walks last links slash cur e steps target)
    (hsteps : withoutHere steps = more.map .name) (isDir : d.IsDir cur) (way : d.OpenWay cur more)
    (final : (last.follows slash = false ∧ ∃ n, steps.getLast? = some (.name n)) ∨
      ∀ old, d.node? (cur ++ more) ≠ some (.symlink old)) : d.Comes cur more slash target := by
  induction h generalizing more with
  | @done _ _ cur =>
    obtain rfl : more = [] := by simpa [withoutHere] using hsteps.symm
    exact .here isDir
  | @here _ _ _ _ rest _ _ ih =>
    refine ih hsteps isDir way ?_
    by_cases hrest : rest = []
    · subst hrest
      exact .inr (final.resolve_left fun hname => by simp at hname)
    · exact final.imp_left (And.imp_right (last_of_cons hrest))
  | up =>
    rw [withoutHere_up] at hsteps
    cases more <;> cases hsteps
  | @stop _ _ cur _ n | @name _ _ cur _ n =>
    obtain rfl : more = [n] := eq_singleton_of_withoutHere hsteps
    exact .child isDir
  | @directory _ _ cur _ n rest _ hrest _ hdir _ ih =>
    rw [withoutHere_name] at hsteps
    obtain ⟨m, more, rfl, hst, htail⟩ := List.map_eq_cons_iff.1 hsteps.symm
    obtain rfl := Step.name.inj hst
    refine (ih htail.symm hdir way.tail ?_).below
    rw [← List.append_cons]
    exact final.imp_left (And.imp_right (last_of_cons hrest))
  | @link _ _ cur _ n rest _ old follows _ isLink _ _ =>
    rw [withoutHere_name] at hsteps
    obtain ⟨m, more, rfl, hst, htail⟩ := List.map_eq_cons_iff.1 hsteps.symm
    obtain rfl := Step.name.inj hst
    -- The link is before the end, or it is at the end and would be followed.
    by_cases hmore : more = []
    · subst hmore
      refine absurd isLink ((final.resolve_left ?_) old)
      rintro ⟨keeps, n', hn'⟩
      have hheres := withoutHere_eq_nil_iff.1 htail.symm
      by_cases hrest : rest = []
      · exact Bool.false_ne_true (keeps.symm.trans (follows hrest))
      · obtain ⟨n', hn'⟩ := last_of_cons hrest ⟨n', hn'⟩
        cases hheres _ (List.mem_of_getLast? hn')
    · exact absurd isLink (way [m] (List.prefix_append [m] more) (List.cons_ne_nil _ _)
        (fun heq => hmore (List.cons.inj heq).2.symm) old)

end Disk

/-! ## Bases -/

/-- A directory with a path that leads to it, and the number of links on the way. -/
structure Base where
  path : Path
  location : Location
  links : Nat

/-- The last step of the path is a name, which a slash may follow. -/
def Path.LastIsName (p : Path) : Prop := ∃ n, p.steps.getLast? = some (.name n)

/-- The path ends in a name, not in a slash, `.` or `..`. -/
structure Path.EndsInName (p : Path) : Prop where
  noSlash : p.endsInSlash = false
  last : p.LastIsName

instance : DecidablePred Path.LastIsName := fun p =>
  decidable_of_iff ((p.steps.getLast?.bind Step.name?).isSome = true) (by
    rw [Path.LastIsName]
    cases p.steps.getLast? with
    | none => simp
    | some st => cases st <;> simp [Step.name?])

instance : DecidablePred Path.EndsInName := fun p =>
  decidable_of_iff (p.endsInSlash = false ∧ p.LastIsName)
    ⟨fun ⟨noSlash, last⟩ => ⟨noSlash, last⟩, fun h => ⟨h.noSlash, h.last⟩⟩

namespace Path

variable {p q : Path}

theorem LastIsName.join (h : q.LastIsName) (relative : q.isAbsolute = false) :
    (p.join q).LastIsName := by
  obtain ⟨n, hn⟩ := h
  refine ⟨n, ?_⟩
  rw [steps_join relative, List.getLast?_append_of_ne_nil _ (by rintro hnil; simp [hnil] at hn), hn]

theorem LastIsName.withSlash (h : p.LastIsName) : (p.join ⟨""⟩).LastIsName := by
  rw [LastIsName, steps_withSlash]
  exact h

theorem EndsInName.join (h : q.EndsInName) (relative : q.isAbsolute = false) :
    (p.join q).EndsInName := by
  obtain ⟨n, hn⟩ := h.last
  refine ⟨?_, h.last.join relative⟩
  rw [endsInSlash_join_eq relative (text_ne_nil_of_mem_steps (List.mem_of_getLast? hn))]
  exact h.noSlash

/-- A path that leads to a name, and not to what is there, ends in one. -/
theorem lastIsName_of_target {d : Disk} {dir : Location} {n : Name} {slash : Bool}
    (htarget : d.target .keep p = .ok (.name dir n slash)) : p.LastIsName := by
  obtain ⟨-, hproceed⟩ := Disk.of_target_eq_ok htarget
  obtain ⟨-, -, ⟨l, e, heq, -⟩ | ⟨dir', n', before, -, hsteps, -⟩⟩ :=
    (Disk.walks_of_proceed hproceed).route_keep
  · cases heq
  · exact ⟨n', by rw [hsteps, List.getLast?_concat]⟩

theorem endsInName_inside {n : Name} (hn : IsName n) : (Tree.inside p n).EndsInName where
  noSlash := endsInSlash_join (by rwa [String.toList_ofList])
  last := LastIsName.join ⟨n, by rw [steps_name hn]; rfl⟩ (isAbsolute_name hn.noSlash)

end Path

namespace Base

variable {b : Base} {d : Disk} {p q : Path} {more m : Location} {n : Name} {last : LastLink}
  {target : Target} {follow : Bool} {l : Location} {e : Entry} {now : Time} {mode : Mode}

/-- A disk on which the path of the base leads to its directory. -/
structure Stands (b : Base) (d : Disk) : Prop where
  tree : d.IsTree
  isDir : d.IsDir b.location
  route : d.Route b.links (b.path.startFrom d.workingDirectory) b.path.steps b.location

/-- The path goes by the path of the base and then down these names. -/
structure Spells (b : Base) (p : Path) (more : Location) : Prop where
  absolute : p.isAbsolute = b.path.isAbsolute
  steps : withoutHere p.steps = withoutHere b.path.steps ++ more.map .name

namespace Spells

theorem base (b : Base) : b.Spells b.path [] := ⟨rfl, (List.append_nil _).symm⟩

theorem startFrom_eq (hp : b.Spells p more) (dir : Location) :
    p.startFrom dir = b.path.startFrom dir := by
  rw [Path.startFrom, hp.absolute, Path.startFrom]

theorem join (hp : b.Spells p more) (relative : q.isAbsolute = false) (down : Descends q.steps) :
    b.Spells (p.join q) (more ++ stepNames q.steps) where
  absolute := (Path.isAbsolute_join relative).trans hp.absolute
  steps := by
    rw [Path.steps_join relative, withoutHere_append, hp.steps, down.withoutHere_eq, List.map_append,
      List.append_assoc]

theorem inside (hp : b.Spells p more) (hn : IsName n) : b.Spells (Tree.inside p n) (more ++ [n]) := by
  have hsteps := Path.steps_name hn
  have hjoin := hp.join (Path.isAbsolute_name hn.noSlash)
    (by rw [hsteps]; exact fun st hst => List.mem_singleton.1 hst ▸ hn.isDown)
  rwa [hsteps] at hjoin

/-- The path of an entry of the base itself. -/
theorem entry (b : Base) {name : String} (hn : IsName name.toList) :
    b.Spells (b.path.join ⟨name⟩) [name.toList] := by
  have hspells := (base b).inside hn
  rwa [Tree.inside, String.ofList_toList] at hspells

theorem withSlash (hp : b.Spells p more) : b.Spells (p.join ⟨""⟩) more := by
  have hjoin := hp.join (q := ⟨""⟩) rfl nofun
  rwa [show stepNames (Path.mk "").steps = [] from rfl, List.append_nil] at hjoin

theorem parent (hp : b.Spells p (more ++ [n])) (hq : p.parent? = some q) : b.Spells q more where
  absolute := (Path.isAbsolute_parent hq).trans hp.absolute
  steps := by
    obtain ⟨before, st, after, hsteps, hbefore, hafter, hst⟩ := Path.steps_parent hq
    have hall := hp.steps
    have hne : st ≠ .here := by
      refine hst.resolve_right fun hheres => ?_
      rw [withoutHere_eq_nil_iff.2 hheres] at hall
      simp at hall
    have hlast : withoutHere (st :: after) = [st] := by
      rw [← List.singleton_append, withoutHere_append, withoutHere_eq_nil_iff.2 hafter]
      cases st <;> first | rfl | exact absurd rfl hne
    rw [hsteps, withoutHere_append, withoutHere_append, withoutHere_eq_nil_iff.2 hbefore,
      List.append_nil, hlast, List.map_append, ← List.append_assoc] at hall
    exact (List.append_inj' hall rfl).1

theorem unique (hp : b.Spells p more) (hp' : b.Spells p m) : more = m :=
  List.map_injective_iff.2 (fun _ _ => Step.name.inj)
    (List.append_cancel_left (hp.steps.symm.trans hp'.steps))

/-- A path above leads to a directory on the way down, or is above the base. -/
theorem of_mem_ancestors (hp : b.Spells p more) (hq : q ∈ p.ancestors) :
    q.isAbsolute = b.path.isAbsolute ∧
      ((∃ m, m <+: more ∧ b.Spells q m) ∨ withoutHere q.steps <+: withoutHere b.path.steps) := by
  obtain ⟨habs, hprefix⟩ := Path.of_mem_ancestors hq
  have hprefix : withoutHere q.steps <+: withoutHere b.path.steps ++ more.map .name :=
    hp.steps ▸ hprefix.filter _
  refine ⟨habs.trans hp.absolute, ?_⟩
  obtain hshort | ⟨rest, hrest⟩ :=
    List.prefix_or_prefix_of_prefix hprefix (List.prefix_append _ (more.map Step.name))
  · exact .inr hshort
  · rw [← hrest, List.prefix_append_right_inj, List.prefix_iff_eq_take, ← List.map_take] at hprefix
    exact .inl ⟨_, List.take_prefix _ _, habs.trans hp.absolute, by rw [← hrest, hprefix]⟩

theorem descends (hp : b.Spells p more) : Descends (more.map .name) := by
  intro st hst
  obtain ⟨n, hn, rfl⟩ := List.mem_map.1 hst
  have hmem : Step.name n ∈ withoutHere p.steps := by
    rw [hp.steps]
    exact List.mem_append_right _ (List.mem_map_of_mem hn)
  exact Path.mem_steps_name (List.mem_of_mem_filter hmem)

theorem nonempty (hp : b.Spells p more) (hne : more ≠ []) : p.text.isEmpty = false := by
  obtain ⟨n, rest, rfl⟩ := List.exists_cons_of_ne_nil hne
  have hmem : Step.name n ∈ withoutHere p.steps := by
    rw [hp.steps]
    simp
  exact Path.text_isEmpty_eq_false (List.mem_of_mem_filter hmem)

/-- What the path leads to. -/
theorem comes (hp : b.Spells p more) (h : b.Stands d) (hne : more ≠ [])
    (way : d.OpenWay b.location more)
    (final : last.follows p.endsInSlash = false ∧ p.LastIsName ∨
      ∀ old, d.node? (b.location ++ more) ≠ some (.symlink old))
    (htarget : d.target last p = .ok target) : d.Comes b.location more p.endsInSlash target := by
  obtain ⟨-, hproceed⟩ := Disk.of_target_eq_ok htarget
  obtain ⟨before, onward, hsteps, hbefore, honward⟩ := List.filter_eq_append_iff.1 hp.steps
  have hroute := h.route.congr hbefore
  have honwardNe : onward ≠ [] := by
    rintro rfl
    exact hne (List.map_eq_nil_iff.1 honward.symm)
  rw [hsteps, hp.startFrom_eq] at hproceed
  obtain few | many := Nat.lt_or_ge linkLimit b.links
  · rw [hroute.proceed_short h.tree honwardNe few] at hproceed
    cases hproceed
  obtain ⟨j, hj⟩ := Nat.exists_eq_add_of_le many
  rw [hj, hroute.proceed h.tree (f := .here) honwardNe] at hproceed
  refine (Disk.walks_of_proceed hproceed).down honward h.isDir way (final.imp_left ?_)
  rintro ⟨hkeep, n, hn⟩
  refine ⟨hkeep, n, ?_⟩
  rwa [hsteps, List.getLast?_append_of_ne_nil _ honwardNe] at hn

/-- What the path names is the entry of the names. -/
theorem get?_of_find (hp : b.Spells p more) (h : b.Stands d) (hne : more ≠ [])
    (way : d.OpenWay b.location more)
    (final : follow = false ∧ p.EndsInName ∨
      ∀ old, d.node? (b.location ++ more) ≠ some (.symlink old))
    (hfind : d.find follow p = .ok (l, e)) :
    l = b.location ++ more ∧ d.get? (b.location ++ more) = some e := by
  obtain ⟨target, htarget, rfl, hget⟩ := Disk.of_find hfind
  have hlast : (if follow || p.endsInSlash then LastLink.follow else .keep).follows p.endsInSlash =
      false ∧ p.LastIsName ∨ ∀ old, d.node? (b.location ++ more) ≠ some (.symlink old) := by
    refine final.imp_left ?_
    rintro ⟨rfl, hname⟩
    rw [hname.noSlash]
    exact ⟨rfl, hname.last⟩
  have hloc := (hp.comes h hne way hlast htarget).location_eq
  exact ⟨hloc, hloc ▸ hget⟩

/-- The path names a directory at which it comes out. -/
theorem names (hp : b.Spells p more) (h : b.Stands d) (few : b.links ≤ linkLimit)
    (valid : p.IsValid) (isDir : d.IsDir (b.location ++ more)) :
    d.Names p (b.location ++ more) := by
  have hdown := Disk.Route.descend_of_isDir h.tree hp.descends
    (by rw [stepNames_map_name]; exact isDir)
  rw [stepNames_map_name] at hdown
  refine ⟨valid, b.links, few, ?_⟩
  rw [hp.startFrom_eq, ← Nat.add_zero b.links]
  refine (h.route.append hdown).congr ?_
  rw [hp.steps, withoutHere_append, withoutHere_map_name]

/-- A name that the path leads to is the last one, in the directory of those before it. -/
theorem of_target_name (hp : b.Spells p more) (h : b.Stands d) (hne : more ≠ [])
    (way : d.OpenWay b.location more)
    (final : last.follows p.endsInSlash = false ∧ p.LastIsName ∨
      ∀ old, d.node? (b.location ++ more) ≠ some (.symlink old))
    {dir : Location} {slash : Bool} (htarget : d.target last p = .ok (.name dir n slash)) :
    ∃ above, more = above ++ [n] ∧ dir = b.location ++ above ∧ d.IsDir dir ∧
      slash = p.endsInSlash := by
  have hcomes := hp.comes h hne way final htarget
  generalize p.endsInSlash = slash' at hcomes
  cases hcomes with
  | name split isDir => exact ⟨_, split, rfl, isDir, rfl⟩

/-- The names that the path spells can be names. -/
theorem isName (hp : b.Spells p more) (hn : n ∈ more) (short : isTooLong n = false) : IsName n :=
  have hdown := hp.descends (.name n) (List.mem_map_of_mem hn)
  ⟨hdown.1, hdown.2, short⟩

/-- Where nothing is, the path leads to the last name in the directory of those before it. -/
theorem of_leadsToFree (hp : b.Spells p more) (h : b.Stands d) (hne : more ≠ [])
    (way : d.OpenWay b.location more)
    (final : last.follows p.endsInSlash = false ∧ p.LastIsName ∨
      ∀ old, d.node? (b.location ++ more) ≠ some (.symlink old))
    {dir : Location} (free : d.LeadsToFree last p dir n) :
    ∃ above, more = above ++ [n] ∧ dir = b.location ++ above ∧ d.IsDir dir ∧ IsName n := by
  obtain ⟨slash, htarget⟩ := free.target
  obtain ⟨above, split, hdir, isDir, -⟩ := hp.of_target_name h hne way final htarget
  exact ⟨above, split, hdir, isDir, hp.isName (by rw [split]; simp) free.short⟩

/-- Where the path names a directory, there is one. -/
theorem isDir_of_isDirectory (hp : b.Spells p more) (h : b.Stands d) (hne : more ≠ [])
    (way : d.OpenWay b.location more)
    (noLink : ∀ old, d.node? (b.location ++ more) ≠ some (.symlink old))
    (hdir : d.isDirectory p = true) : d.IsDir (b.location ++ more) := by
  unfold Disk.isDirectory at hdir
  cases hfind : d.find true p with
  | error fault => rw [hfind] at hdir; cases hdir
  | ok found =>
    obtain ⟨l, e⟩ := found
    rw [hfind] at hdir
    obtain ⟨-, hget⟩ := hp.get?_of_find h hne way (.inr noLink) hfind
    exact Disk.isDir_of_get? hget (Disk.kind_eq_directory_iff.1 (beq_iff_eq.1 hdir))

/-- What the path names, if there is a directory at the names. -/
theorem location_of_find (hp : b.Spells p more) (h : b.Stands d) (hne : more ≠ [])
    (isDir : d.IsDir (b.location ++ more)) (l : Location) (e : Entry)
    (hfind : d.find follow p = .ok (l, e)) : l = b.location ++ more :=
  (hp.get?_of_find h hne (h.tree.openWay (Disk.node?_ne_none_of_eq isDir)) (.inr isDir.ne_symlink)
    hfind).1

/-- What the path of the base names, or one with steps that stay where they are. -/
theorem location_of_find_base (hp : b.Spells p []) (h : b.Stands d) (few : b.links ≤ linkLimit)
    (hfind : d.find true p = .ok (l, e)) : l = b.location := by
  obtain ⟨target, htarget, rfl, -⟩ := Disk.of_find hfind
  rw [Bool.true_or, if_pos rfl] at htarget
  obtain ⟨-, hproceed⟩ := Disk.of_target_eq_ok htarget
  rw [hp.startFrom_eq] at hproceed
  obtain ⟨target', hwalks, hlocation⟩ := (h.route.congr
    (hp.steps.trans (List.append_nil _))).walks_follow h.tree few
  cases hproceed.symm.trans hwalks.proceed
  exact hlocation

end Spells

/-- The path still leads to the base if no directory and no link is gone. -/
theorem Stands.mono (h : b.Stands d) {d' : Disk} (tree : d'.IsTree)
    (working : d'.workingDirectory = d.workingDirectory)
    (keep : ∀ {l node}, d.node? l = some node → node.kind ≠ .file → d'.node? l = some node) :
    b.Stands d' where
  tree := tree
  isDir := keep h.isDir nofun
  route := by
    rw [working]
    exact h.route.mono (fun _ hl => keep hl nofun) fun _ _ hl => keep hl nofun

/-- No directory is made at a path above the base. -/
theorem Stands.not_made_above (h : b.Stands d) (absolute : q.isAbsolute = b.path.isAbsolute)
    (above : withoutHere q.steps <+: withoutHere b.path.steps) {d' : Disk} :
    d.makeDirectory now q mode ≠ .ok d' := by
  intro hmake
  obtain ⟨dir, n, free, -⟩ := Disk.of_makeDirectory hmake
  obtain ⟨slash, htarget⟩ := free.target
  obtain ⟨-, hproceed⟩ := Disk.of_target_eq_ok htarget
  obtain ⟨rest, hrest⟩ := above
  obtain ⟨before, after, hsteps, hbefore, -⟩ := List.filter_eq_append_iff.1 hrest.symm
  have hroute := h.route
  rw [hsteps] at hroute
  obtain ⟨i, j, l, -, hroute, -⟩ := hroute.split
  have hroute := hroute.congr hbefore.symm
  rw [Path.startFrom, absolute, ← Path.startFrom] at hproceed
  obtain ⟨k, -, ⟨l', e', heq, -⟩ | ⟨dir', n', before', heq, hlast, -⟩⟩ :=
    (Disk.walks_of_proceed hproceed).route_keep
  · cases heq
  cases heq
  -- The way to the base passes by the name at the end.
  rw [hlast] at hroute hproceed
  obtain ⟨i', j', l', -, hroute, hend⟩ := hroute.split
  obtain many | few := Nat.lt_or_ge linkLimit i'
  · rw [hroute.proceed_short h.tree (List.cons_ne_nil _ _) many] at hproceed
    cases hproceed
  obtain ⟨k', hk'⟩ := Nat.exists_eq_add_of_le few
  rw [hk', hroute.proceed h.tree (f := .here) (List.cons_ne_nil _ _), Disk.proceed_name,
    if_pos ⟨rfl, rfl⟩] at hproceed
  cases hproceed
  have hfree := free.free
  cases hend with
  | directory isDir => rw [show d.node? _ = _ from isDir] at hfree; cases hfree
  | link isLink => rw [isLink] at hfree; cases hfree

/-! ## Changes off the way to the base -/

/-- The location is not strictly below the base. -/
def Off (b : Base) (l : Location) : Prop := ¬ (b.location <+: l ∧ l ≠ b.location)

instance : DecidablePred b.Off := fun _ => inferInstanceAs (Decidable (¬ (_ ∧ _)))

/-- A disk on which neither the way to the base nor the working directory is below the base. -/
structure Rests (b : Base) (d : Disk) : Prop where
  tree : d.IsTree
  working : d.IsDir d.workingDirectory
  few : b.links ≤ linkLimit
  off : b.Off d.workingDirectory
  route : (d.part b.Off).Route b.links (b.path.startFrom d.workingDirectory) b.path.steps b.location

theorem not_off_append (b : Base) (hne : more ≠ []) : ¬ b.Off (b.location ++ more) :=
  not_not_intro ⟨List.prefix_append _ _, fun heq => hne (by simpa using heq)⟩

namespace Rests

variable {d' : Disk}

theorem stands (h : b.Rests d) : b.Stands d where
  tree := h.tree
  isDir := h.route.of_part.isDir_end h.tree (Disk.IsSound.of_working (p := b.path) h.tree h.working).start
  route := h.route.of_part

/-- What changes below the base only leaves the way to it. -/
theorem of_node? (h : b.Rests d) (tree : d'.IsTree)
    (working : d'.workingDirectory = d.workingDirectory)
    (same : ∀ l, b.Off l → d'.node? l = d.node? l) : b.Rests d' where
  tree := tree
  working := by
    rw [Disk.IsDir, working, same _ h.off]
    exact h.working
  few := h.few
  off := working ▸ h.off
  route := by
    have hpart : ∀ {l node}, (d.part b.Off).node? l = some node →
        (d'.part b.Off).node? l = some node := by
      intro l node hl
      obtain ⟨off, hl⟩ := Disk.of_node?_part hl
      rw [Disk.node?_part, if_pos off, same l off, hl]
    rw [working]
    exact h.route.mono (fun _ => hpart) fun _ _ => hpart

theorem of_same (h : b.Rests d) (tree : d'.IsTree) (same : Disk.SameOff (fun l => ¬ b.Off l) d d') :
    b.Rests d' :=
  h.of_node? tree same.workingDirectory fun _ hl => same.node? (not_not_intro hl)

end Rests

end Base

end TwinTrees
