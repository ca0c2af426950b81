import TwinTrees.Proofs.Tree.Depth
import TwinTrees.Proofs.Tree.Transfer

/-!
# The copy of a tree

Of a directory that is copied all names are done when those of each of its entries are
(`Transfer.copyLevels`). So the copy of a tree has all that is in the tree, and has it wherever it was in
the tree; the tree itself and the rest of the disk are left alone, also by a copy that fails
(`Tree.copyTree_faithful`).
-/

namespace TwinTrees

open TwinTrees.Action (Leaves of_run_bind run_bind run_bind_ask)

namespace Transfer

variable {c : Transfer} {u d : Disk} {done : Set Location} {more m : Location} {n : Name}
  {p target source : Path} {w v : World}

/-- The names of a directory and of what is below it, but for these entries with what is below them. -/
def Without (more : Location) (rest : List (Name × Kind)) : Set Location :=
  {m | more <+: m ∧ ∀ x ∈ rest, ¬ more ++ [x.1] <+: m}

theorem mem_without_cons {x : Name × Kind} {rest : List (Name × Kind)} (h : m ∈ Without more rest) :
    m ∈ Without more (x :: rest) ∨ more ++ [x.1] <+: m := by
  by_cases hx : more ++ [x.1] <+: m
  · exact .inr hx
  · exact .inl ⟨h.1, List.forall_mem_cons.2 ⟨hx, h.2⟩⟩

section Levels

variable (hu : c.Ready u)
include hu

/-- Below a directory nothing is but its entries and what is below them. -/
theorem eq_or_free_of_without {names : List (Name × Kind)}
    (lists : u.Lists (c.source.location ++ more) names) (hm : m ∈ Without more names) :
    m = more ∨ u.node? (c.source.location ++ m) = none := by
  obtain ⟨⟨onward, rfl⟩, hnames⟩ := hm
  cases onward with
  | nil => exact .inl (List.append_nil more)
  | cons k onward =>
    refine .inr ?_
    by_contra hnode
    have hbelow : u.node? (c.source.location ++ more ++ [k] ++ onward) ≠ none := by simpa using hnode
    obtain ⟨node, hchild⟩ :=
      Option.ne_none_iff_exists'.1 (hu.source.tree.node?_ne_none_of_append hbelow)
    exact hnames (k, node.kind) ((lists.mem_iff _ _).2 (by rw [hchild]; rfl)) (by simp)

/-- Nothing is below what is no directory. -/
theorem eq_or_free_of_leaf (leaf : ¬ u.IsDir (c.source.location ++ more)) (hm : more <+: m) :
    m = more ∨ u.node? (c.source.location ++ m) = none := by
  obtain ⟨onward, rfl⟩ := hm
  by_cases hnil : onward = []
  · exact .inl (by rw [hnil, List.append_nil])
  · rw [← List.append_assoc]
    exact .inr (hu.source.tree.free_below leaf hnil)

/-- What is listed of a directory to be copied is what was there before. -/
theorem Started.lists (h : c.Started u d)
    (found : ∀ l e, d.find true source = .ok (l, e) → l = c.source.location ++ more)
    {names : List (Name × Kind)} (hlist : d.list source = .ok names) :
    u.Lists (c.source.location ++ more) names := by
  obtain ⟨l, e, hfind, -, rfl⟩ := Disk.of_list hlist
  obtain rfl := found l e hfind
  refine (h.tree.lists _).congr fun n => ?_
  rw [List.append_assoc, h.node?_source hu]

/-- A directory is copied with all that is in it. -/
theorem copyLevels (root : Path) (depth : Nat) {copySelf : Action CommandError Unit}
    (hp : c.target.Spells target (c.goal ++ more)) (hs : c.source.Spells source more)
    (isDir : u.IsDir (c.source.location ++ more))
    (found : ∀ d, c.Started u d → ∀ l e, d.find true source = .ok (l, e) →
      l = c.source.location ++ more)
    (hself : Leaves (c.Copied u done) copySelf (fun _ => c.Copied u (insert more done)) (c.Started u)) :
    Leaves (c.Copied u done) (Tree.copyLevels root depth target source copySelf)
      (fun _ => c.Copied u (done ∪ {m | more <+: m})) (c.Started u) := by
  induction depth generalizing more target source copySelf done with
  | zero => exact hself.bind fun _ => Leaves.throw fun _ h => h.toStarted
  | succ depth ih =>
    rw [Tree.copyLevels]
    refine Leaves.bind (Q := fun names d => (∀ list, names = .ok list →
      u.Lists (c.source.location ++ more) list) ∧ c.Copied u done d)
      (Leaves.ask ?_ fun _ h => h.toStarted) fun names => Leaves.given (fun _ h => h.1) fun hlists => ?_
    · rintro d _ h ⟨⟩
      exact ⟨fun list hlist => h.lists hu (found d h.toStarted) hlist, h⟩
    refine (hself.pre fun _ h => h.2).bind fun _ => ?_
    cases names with
    | error fault => exact Leaves.throw fun _ h => h.toStarted
    | ok names =>
      have lists : u.Lists (c.source.location ++ more) (Tree.sortedNames names) :=
        (hlists names rfl).perm (List.mergeSort_perm ..)
      -- done are all names of the directory but those of the entries that are left
      refine (Leaves.forM (I := fun rest => c.Copied u (done ∪ Without more rest))
        fun x rest hrest => ?_).mono (fun d h => h.mono fun m hm => ?_)
        (fun _ d h => h.mono fun m hm => ?_) fun _ h => h
      · obtain ⟨n, kind⟩ := x
        obtain ⟨node, hnode, hkind⟩ := Option.map_eq_some_iff.1
          ((lists.mem_iff n kind).1 (hrest.subset List.mem_cons_self))
        have isName := hu.source.tree.named (l := c.source.location ++ more)
          (Disk.node?_ne_none_of_eq hnode)
        rw [List.append_assoc] at hnode
        obtain ⟨e, he, rfl⟩ := Disk.node?_eq_some_iff.1 hnode
        have hs' := hs.inside isName
        have hp' := hp.inside isName
        rw [List.append_assoc] at hp'
        have ends : (Tree.inside target n).EndsInName := Path.endsInName_inside isName
        have hcopy : Leaves (c.Copied u (done ∪ Without more ((n, kind) :: rest)))
            (Tree.copyEntry (Tree.inside target n) (Tree.inside source n))
            (fun _ => c.Copied u (insert (more ++ [n]) (done ∪ Without more ((n, kind) :: rest))))
            (c.Started u) :=
          copyEntry hu hp' he ends.last hs' (Path.endsInName_inside isName)
        simp only
        split
        · next hdir =>
          have isDir' := Disk.isDir_of_get? he (Disk.kind_eq_directory_iff.1 (hkind.trans hdir))
          have hall := ih hp' hs' isDir' (fun d h => hs'.location_of_find (h.source_stands hu)
            (by simp) ((h.node?_source hu _).trans isDir')) hcopy
          refine hall.post fun _ d h => h.mono fun m hm => .inl ?_
          exact hm.elim (fun hm => .inl (.inl hm)) fun hm =>
            (mem_without_cons hm).imp (fun hm => .inr hm) id
        · next hdir =>
          have leaf : ¬ u.IsDir (c.source.location ++ (more ++ [n])) := fun isDir' => by
            rw [Disk.IsDir, hnode] at isDir'
            rw [Option.some.inj isDir'] at hkind
            exact hdir hkind.symm
          refine hcopy.post fun _ d h => h.mono fun m hm => ?_
          obtain hm | hm := hm
          · exact .inl (.inr (.inl hm))
          obtain hm | hbelow := mem_without_cons hm
          · exact .inl (.inr (.inr hm))
          · exact (eq_or_free_of_leaf hu leaf hbelow).imp_left .inl
      · obtain hm | hm := hm
        · exact .inl (.inr hm)
        · exact (eq_or_free_of_without hu lists hm).imp_left .inl
      · exact .inl (hm.imp_right fun hm => ⟨hm, List.forall_mem_nil _⟩)

/-- The directory at the base is copied with all that is in it. -/
theorem copyAll (hp : c.target.Spells p c.goal) (depth : Nat) :
    Leaves (c.Copied u ∅) (Tree.copyLevels c.source.path depth p c.source.path
      (Tree.copyEntry p c.source.path)) (fun _ => c.Copied u Set.univ) (c.Started u) := by
  refine Leaves.post (Q := fun _ => c.Copied u (∅ ∪ {m | [] <+: m}))
    (copyLevels hu c.source.path depth ((List.append_nil c.goal).symm ▸ hp) (.base c.source)
      ((List.append_nil c.source.location).symm ▸ hu.source.isDir)
      (fun d h l e hfind => (h.location_of_find hu hfind).1.trans (List.append_nil _).symm)
      (copyRoot hu hp)) fun _ d h => h.mono fun m _ => .inl (.inr List.nil_prefix)

omit hu in
/-- Once all names are done, at the place is what was copied. -/
theorem Copied.map_shown (h : c.Copied u Set.univ d) (m : Location) :
    (d.node? (c.place ++ m)).map Node.shown = (u.node? (c.source.location ++ m)).map Node.shown := by
  cases hu : u.node? (c.source.location ++ m) with
  | some node =>
    obtain ⟨node', hnode', hshown⟩ := h.same m trivial node hu
    rw [hnode', Option.map_some, hshown, Option.map_some]
  | none =>
    cases hd : d.node? (c.place ++ m) with
    | none => rfl
    | some node =>
      have hkind := h.kinds m node.kind (by rw [Disk.kind?, hd, Option.map_some])
      rw [Disk.kind?_eq_none_iff.2 hu] at hkind
      cases hkind

/-- If the directory at the place is made, the path to it can be followed. -/
theorem valid_of_copyRoot (hp : c.target.Spells p c.goal) (nonempty : p.text.isEmpty = false)
    (hw : w.disk = u) (hrun : (Tree.copyEntry p c.source.path).run w = (.ok (), v)) :
    p.IsValid ∧ c.target.links ≤ linkLimit := by
  subst hw
  have stands : c.target.Stands v.disk :=
    ((copyRoot hu hp).succeeds w () v hu.copied hrun).target_stands hu
  unfold Tree.copyEntry at hrun
  obtain ⟨⟨l, e⟩, w₁, hask, hrest⟩ := of_run_bind hrun
  have hasked := Action.of_run_mapError hask
  rw [Action.run_ask] at hasked
  obtain ⟨hlook, rfl⟩ := Prod.mk.inj hasked
  simp only [(hu.started.location_of_find hu hlook).2] at hrest
  have hmake := Action.of_run_mapError hrest
  obtain ⟨hthere, -⟩ := Tree.of_makeDirectories e.mode
    (.of_working hu.source.tree hu.working) nonempty (congrArg Prod.fst hmake)
  rw [hmake] at hthere
  obtain ⟨l, ⟨valid, k, few, route⟩, isDir⟩ := (Disk.isDirectory_iff stands.tree).1 hthere
  -- a way along the path begins with the one to the directory from which the names go down
  have hsteps : withoutHere (c.target.path.steps ++ c.goal.map .name) = withoutHere p.steps := by
    rw [withoutHere_append, withoutHere_map_name, hp.steps]
  obtain ⟨i, j, m, rfl, first, -⟩ := (route.congr hsteps).split
  rw [hp.startFrom_eq] at first
  obtain ⟨rfl, -⟩ := first.unique stands.route
  exact ⟨valid, Nat.le_of_add_right_le few⟩

/-- When the copy is done, the path of the copy leads to it. -/
theorem find_of_copied (hp : c.target.Spells p c.goal) (hfollow : p.IsValid ∧ c.target.links ≤ linkLimit)
    (h : c.Copied u Set.univ d) : ∃ e, d.find true p = .ok (c.place, e) := by
  obtain ⟨node, hnode, hshown⟩ := h.same [] trivial .directory
    ((List.append_nil c.source.location).symm ▸ hu.source.isDir)
  obtain rfl := Node.shown_eq_directory_iff.1 hshown
  rw [List.append_nil] at hnode
  obtain ⟨valid, k, few, route⟩ := hp.names (h.target_stands hu) hfollow.2 hfollow.1 hnode
  obtain ⟨e, he, hdir⟩ := Disk.isDir_iff.1 hnode
  exact ⟨e, route.find h.tree few valid.noNul valid.nonempty valid.short he hdir⟩

end Levels

/-- A directory and the path of its copy, which meets no link that leads nowhere. -/
theorem exists_of_reaches {src place : Location} {e : Entry} (tree : u.IsTree)
    (working : u.IsDir u.workingDirectory) (real : u.lookAt source = .ok (src, e))
    (isDir : e.node = .directory)
    (reaches : u.Reaches (target.startFrom u.workingDirectory) target.steps place)
    (vacant : ∀ l, place <+: l → u.node? l = none ∨ l = place ∧ u.IsDir place)
    (notInside : ¬ src <+: place) (notAround : ¬ place <+: src) :
    ∃ c : Transfer, c.source.path = source ∧ c.source.location = src ∧ c.place = place ∧ c.Ready u ∧
      c.target.Spells target c.goal := by
  obtain ⟨before, after, j, dir, hsteps, onward, down, rfl, noLink⟩ := reaches
  obtain ⟨-, k, -, route⟩ :=
    Disk.names_of_find tree (Disk.find_of_lookAt tree real (by rw [isDir]; nofun)) isDir
  obtain ⟨q, habsolute, hq⟩ := Path.exists_steps_eq (p := target) ⟨after, hsteps.symm⟩
  have hstart : q.startFrom u.workingDirectory = target.startFrom u.workingDirectory := by
    rw [Path.startFrom, habsolute, ← Path.startFrom]
  refine ⟨⟨⟨source, src, k⟩, ⟨q, dir, j⟩, stepNames after⟩, rfl, rfl, rfl, ?_, habsolute.symm, ?_⟩
  · exact {
      source := ⟨tree, Disk.isDir_of_get? (Disk.get?_of_lookAt real) isDir, route⟩
      target := ⟨tree, onward.isDir_end tree (tree.isDir_startFrom working target),
        by rw [hstart, hq]; exact onward⟩
      working := working
      looked := ⟨e, real, isDir⟩
      noLink := noLink
      vacant := vacant
      notInside := notInside
      notAround := notAround }
  · rw [hsteps, withoutHere_append, down.withoutHere_eq, hq]

end Transfer

namespace Tree

variable {w w' : World} {target source : Path} {src place : Location} {e : Entry}

theorem run_copyTree_of_directory (real : w.disk.lookAt source = .ok (src, e))
    (isDir : e.node = .directory) (target : Path) :
    (copyTree target source).run w = (copyLevels source pathLimit (target.join ⟨""⟩) source
      (copyEntry (target.join ⟨""⟩) source)).run w := by
  have hkind : e.node.kind = .directory := by rw [isDir]; rfl
  unfold copyTree
  rw [run_bind, Action.run_mapError, Action.run_ask, real]
  simp only [Except.mapError]
  rw [if_neg (by rw [hkind]; decide), run_bind]
  show (ite (e.node.kind = .directory) _ _ : Action CommandError Unit).run w = _
  rw [if_pos hkind]

theorem of_run_copyLevels {root : Path} {depth : Nat} {copySelf : Action CommandError Unit}
    (hrun : (copyLevels root depth target source copySelf).run w = (.ok (), w')) :
    ∃ v, copySelf.run w = (.ok (), v) := by
  cases depth with
  | zero =>
    obtain ⟨⟨⟩, v, hself, -⟩ := of_run_bind hrun
    exact ⟨v, hself⟩
  | succ depth =>
    rw [copyLevels] at hrun
    rw [run_bind_ask] at hrun
    obtain ⟨⟨⟩, v, hself, -⟩ := of_run_bind hrun
    exact ⟨v, hself⟩

/-- Where the directory itself cannot be copied, nothing is. -/
theorem copyLevels_of_failing {P E : Disk → Prop} {copySelf : Action CommandError Unit}
    (h : Leaves P copySelf (fun _ _ => False) E) (he : ∀ d, P d → E d) (root : Path) (depth : Nat) :
    Leaves P (copyLevels root depth target source copySelf) (fun _ _ => False) E := by
  cases depth with
  | zero => exact h.bind fun _ => Leaves.given (fun _ hfalse => hfalse) False.elim
  | succ depth =>
    rw [copyLevels]
    exact (Leaves.ask (Q := fun _ => P) (fun _ _ h _ => h) he).bind fun _ =>
      h.bind fun _ => Leaves.given (fun _ hfalse => hfalse) False.elim

/-- To a path that is stuck nothing is copied. -/
theorem leaves_of_stuck (tree : w.disk.IsTree) (working : w.disk.IsDir w.disk.workingDirectory)
    (real : w.disk.lookAt source = .ok (src, e)) (isDir : e.node = .directory)
    (stuck : w.disk.Stuck (target.startFrom w.disk.workingDirectory) target.steps)
    (root : Path) (depth : Nat) :
    Leaves (· = w.disk) (copyLevels root depth target source (copyEntry target source))
      (fun _ _ => False) (· = w.disk) := by
  refine copyLevels_of_failing ?_ (fun _ => id) root depth
  unfold copyEntry
  refine Leaves.bind (Q := fun x d => x = (src, e) ∧ d = w.disk)
    (Leaves.named (Leaves.ask (fun d x hd hlook => ⟨?_, hd⟩) fun _ => id) _ _) fun x =>
    Leaves.given (fun _ h => h.1) ?_
  · rintro rfl
    simp only [isDir]
    exact ((stuck.makeDirectories (.of_working tree working)).named _ _).pre fun _ h => h.2
  · rw [hd] at hlook
    exact Except.ok.inj (hlook.symm.trans real)

/-- Copying a directory to a place that is apart from it, and at which nothing is but perhaps an empty
directory, leaves the directory and the rest of the disk alone, except that it makes the directories that
are missing on the way to the place. If it succeeds, the path of the copy leads to the place, and at the
place is what is in the directory, each entry at the same names. How many levels it may go down makes no
difference, as long as there are as many as a path can be long. -/
theorem copyTree_faithful {x : Except CommandError Unit} (tree : w.disk.IsTree)
    (working : w.disk.IsDir w.disk.workingDirectory) (real : w.disk.lookAt source = .ok (src, e))
    (isDir : e.node = .directory)
    (resolves : w.disk.Resolves (target.startFrom w.disk.workingDirectory) target.steps place)
    (vacant : ∀ l, place <+: l → w.disk.node? l = none ∨ l = place ∧ w.disk.IsDir place)
    (notInside : ¬ src <+: place) (notAround : ¬ place <+: src)
    (hrun : (copyTree target source).run w = (x, w')) :
    (∀ depth, pathLimit ≤ depth → (copyLevels source depth (target.join ⟨""⟩) source
      (copyEntry (target.join ⟨""⟩) source)).run w = (x, w')) ∧
    (∀ l, ¬ place <+: l → Disk.LeftAlone place w.disk w'.disk l) ∧
    (∀ m, w'.disk.get? (src ++ m) = w.disk.get? (src ++ m)) ∧
    (x = .ok () →
      (target.text.isEmpty = false → ∃ e', w'.disk.find true target = .ok (place, e')) ∧
      ∀ m, (w'.disk.node? (place ++ m)).map Node.shown =
        (w.disk.node? (src ++ m)).map Node.shown) := by
  obtain ⟨valid, -⟩ :=
    Disk.names_of_find tree (Disk.find_of_lookAt tree real (by rw [isDir]; nofun)) isDir
  rw [run_copyTree_of_directory real isDir] at hrun
  refine ⟨fun depth hdepth => ?_, ?_⟩
  · have enough : ∀ depth, pathLimit ≤ depth → Enough depth source := by
      intro depth hdepth
      have hlong := Path.byteLength_pos valid.nonempty
      rw [Enough, valid.noNul, if_neg Bool.false_ne_true]
      omega
    rw [← hrun]
    exact run_copyLevels_of_enough source (enough _ hdepth) (enough _ (Nat.le_refl _)) usable_copyEntry
      ⟨tree, working⟩
  obtain reaches | stuck := resolves.reaches_or_stuck tree (tree.isDir_startFrom working target)
    fun n => Path.mem_steps_name
  · obtain ⟨c, rfl, rfl, rfl, hu, hp⟩ :=
      Transfer.exists_of_reaches tree working real isDir reaches vacant notInside notAround
    have hcopy := Transfer.copyAll hu hp.withSlash pathLimit
    have started : c.Started w.disk w'.disk := by
      have hdisk := (hcopy.post fun _ _ h => h.toStarted).disk hu.copied
      rwa [hrun] at hdisk
    refine ⟨started.aside, started.get?_source hu, ?_⟩
    rintro rfl
    have copied := hcopy.succeeds w () w' hu.copied hrun
    refine ⟨fun nonempty => ?_, copied.map_shown⟩
    obtain ⟨v, hself⟩ := of_run_copyLevels hrun
    obtain ⟨valid', few⟩ :=
      Transfer.valid_of_copyRoot hu hp.withSlash (Path.text_isEmpty_join_empty nonempty) rfl hself
    exact Transfer.find_of_copied hu hp ⟨valid'.of_join rfl nonempty, few⟩ copied
  · rw [← Path.startFrom_join (q := ⟨""⟩) rfl, ← target.steps_withSlash] at stuck
    have hcopy := leaves_of_stuck tree working real isDir stuck source pathLimit
    have hdisk := (hcopy.post fun _ _ => False.elim).disk rfl
    rw [hrun] at hdisk
    refine ⟨fun l _ => .same (by rw [hdisk]), fun m => by rw [hdisk], ?_⟩
    rintro rfl
    exact (hcopy.succeeds w () w' rfl hrun).elim

/-- What is done once the directory itself is copied, if its entries are listed in order. -/
theorem run_copyLevels_of_sorted {root : Path} {depth : Nat} {copySelf : Action CommandError Unit}
    {names : List (Name × Kind)} {v : World} (hlist : w.disk.list source = .ok names)
    (sorted : names.Pairwise fun a b => Text.le a.1 b.1) (hself : copySelf.run w = (.ok (), v)) :
    (copyLevels root (depth + 1) target source copySelf).run w = (names.forM fun x =>
      if x.2 = Kind.directory then copyLevels root depth (inside target x.1) (inside source x.1)
        (copyEntry (inside target x.1) (inside source x.1))
      else copyEntry (inside target x.1) (inside source x.1)).run v := by
  rw [copyLevels, run_bind_ask, hlist, run_bind, hself]
  simp only
  rw [sortedNames, List.mergeSort_of_pairwise sorted]

/-- A tree with a file, a link and a directory, copied to where two directories are missing below a link
to one. -/
theorem copyTree_faithful_linked :
    let entry : Node → Entry := fun node => ⟨node, 0o755, ⟨0, 0⟩, ⟨0, 0⟩⟩
    let d : Disk := ⟨[([], entry .directory), (["s".toList], entry .directory),
      (["s".toList, "e".toList], entry .directory),
      (["s".toList, "e".toList, "g".toList], entry (.file 1 #[2, 3])),
      (["s".toList, "f".toList], entry (.file 0 #[1])),
      (["s".toList, "l".toList], entry (.symlink ⟨"f"⟩)),
      (["q".toList], entry .directory), (["k".toList], entry (.symlink ⟨"/q"⟩))], 2, []⟩
    let w : World := ⟨⟨d, []⟩, .seeded 0, fun n => ⟨n + 1, 0⟩, 0⟩
    let place : Location := ["q".toList, "m".toList, "c".toList]
    (d.IsTree ∧ d.IsDir d.workingDirectory ∧
      (∃ e, d.lookAt ⟨"/s"⟩ = .ok (["s".toList], e) ∧ e.node = .directory) ∧
      d.Resolves ((Path.mk "/k/m/c").startFrom d.workingDirectory) (Path.mk "/k/m/c").steps place ∧
      (∀ l, place <+: l → d.node? l = none ∨ l = place ∧ d.IsDir place)) ∧
      ∃ w', (copyTree ⟨"/k/m/c"⟩ ⟨"/s"⟩).run w = (.ok (), w') ∧
        (∃ e', w'.disk.find true ⟨"/k/m/c"⟩ = .ok (place, e')) ∧
        (w'.disk.node? (place ++ ["l".toList])).map Node.shown = some (.symlink ⟨"f"⟩) ∧
        (w'.disk.node? (place ++ ["e".toList, "g".toList])).map Node.shown = some (.file 0 #[2, 3]) ∧
        w'.disk.get? ["s".toList, "f".toList] = d.get? ["s".toList, "f".toList] ∧
        Disk.LeftAlone place d w'.disk ["q".toList] := by
  intro entry d w place
  have tree : d.IsTree := .of_entries (by decide) rfl (by decide)
  have hlook : d.lookAt ⟨"/s"⟩ = .ok (["s".toList], entry .directory) :=
    eq_ok_of_toOption (by decide +kernel)
  have resolves : d.Resolves ((Path.mk "/k/m/c").startFrom d.workingDirectory) (Path.mk "/k/m/c").steps
      place := by
    have hsteps : (Path.mk "/k/m/c").steps = [.name "k".toList, .name "m".toList, .name "c".toList] := by
      decide +kernel
    have hlink : d.node? ["k".toList] = some (.symlink ⟨"/q"⟩) := by decide +kernel
    rw [hsteps]
    refine .link hlink ?_
    rw [show (Path.mk "/q").steps = [.name "q".toList] by decide +kernel]
    exact .name (Disk.ne_symlink_of_kind? (by decide +kernel))
      (.name (Disk.ne_symlink_of_kind? (by decide +kernel))
        (.name (Disk.ne_symlink_of_kind? (by decide +kernel)) .nil))
  have vacant : ∀ l, place <+: l → d.node? l = none ∨ l = place ∧ d.IsDir place := by
    intro l hl
    have habove : ["q".toList, "m".toList] <+: l := .trans ⟨["c".toList], rfl⟩ hl
    refine .inl (tree.node?_eq_none_of_prefix habove ?_ (by decide +kernel))
    rintro rfl
    exact absurd hl.length_le (by decide)
  obtain ⟨w', hrun⟩ : ∃ w', (copyTree ⟨"/k/m/c"⟩ ⟨"/s"⟩).run w = (.ok (), w') := by
    let copy : Path := (Path.mk "/k/m/c").join ⟨""⟩
    let v : World := ((copyEntry copy ⟨"/s"⟩).run w).2
    have hlist : w.disk.list ⟨"/s"⟩ = .ok
        [("e".toList, .directory), ("f".toList, .file), ("l".toList, .symlink)] :=
      eq_ok_of_toOption (by decide +kernel)
    have hlist' : v.disk.list (inside ⟨"/s"⟩ "e".toList) = .ok [("g".toList, .file)] :=
      eq_ok_of_toOption (by decide +kernel)
    rw [run_copyTree_of_directory hlook rfl, show pathLimit = 4094 + 1 + 1 from rfl,
      run_copyLevels_of_sorted hlist (by decide +kernel) (Action.run_eq_of_toOption (by decide +kernel)),
      List.forM, run_bind, if_pos rfl,
      run_copyLevels_of_sorted hlist' (by decide +kernel) (Action.run_eq_of_toOption (by decide +kernel))]
    exact Action.exists_run_of_toOption (by decide +kernel)
  obtain ⟨-, haside, hsource, hcopied⟩ := copyTree_faithful (w := w) tree rfl hlook rfl resolves vacant
    (by decide) (by decide) hrun
  obtain ⟨hfound, hsame⟩ := hcopied rfl
  refine ⟨⟨tree, rfl, ⟨_, hlook, rfl⟩, resolves, vacant⟩, w', hrun, hfound (by decide), ?_, ?_, ?_, ?_⟩
  · rw [hsame]
    decide +kernel
  · rw [hsame]
    decide +kernel
  · exact hsource ["f".toList]
  · exact haside _ (by decide)

end Tree

end TwinTrees
