import TwinTrees.Proofs.Base.Stamping
import TwinTrees.Proofs.Disk.Nodes
import TwinTrees.Proofs.Path.Order

/-!
# The test files that paths stand for

A walk down from a directory visits the entries below it, each once, and the path of a visit is that
of the directory with the names of the entry (`mem_walkContents_iff`, `walkDown_apart`). So the test
files that are found are determined by what is where on the disk, and being in the order of their
paths and all different they can be listed in one way only (`discover_ordered_union`): the order in
which the disk lists the entries of a directory does not matter.
-/

namespace TwinTrees

theorem Base.Spells.down {b : Base} {p : Path} {more m : Location} (hp : b.Spells p more)
    (hm : ∀ n ∈ m, IsName n) : b.Spells (p.down m) (more ++ m) := by
  induction m generalizing p more with
  | nil => rwa [List.append_nil]
  | cons n m ih =>
    obtain ⟨hn, hm⟩ := List.forall_mem_cons.1 hm
    rw [List.append_cons]
    exact ih (hp.inside hn) hm

namespace Disk

variable {d d' : Disk} {root p q : Path} {l m : Location} {n : Name} {e : Entry} {kind : Kind}
  {files : List Path} {paths : List Path}

/-! ## What a walk visits -/

/-- The names of what is there can be names. -/
theorem IsTree.isName_of_mem (t : d.IsTree) (there : d.node? (l ++ m) ≠ none) (hn : n ∈ m) :
    IsName n := by
  obtain ⟨before, after, rfl⟩ := List.append_of_mem hn
  rw [List.append_cons, ← List.append_assoc, ← List.append_assoc] at there
  exact t.named (t.node?_ne_none_of_append there)

/-- The path of a visit goes on from that of the directory by names. -/
theorem exists_of_mem_walkContents (t : d.IsTree) {depth : Nat}
    (h : .ok (q, kind) ∈ d.walkContents depth p) :
    ∃ n rest, (∀ x ∈ n :: rest, IsName x) ∧ q = p.down (n :: rest) := by
  induction depth generalizing p with
  | zero => cases List.mem_singleton.1 h
  | succ depth ih =>
    unfold walkContents at h
    cases hlist : d.list p with
    | error fault =>
      rw [hlist] at h
      cases List.mem_singleton.1 h
    | ok names =>
      rw [hlist] at h
      obtain ⟨⟨n, k⟩, hmem, h⟩ := List.mem_flatMap.1 h
      have hn := t.isName_of_list hlist hmem
      obtain heq | h := List.mem_cons.1 h
      · cases heq
        exact ⟨n, [], List.forall_mem_singleton.2 hn, rfl⟩
      · split at h
        · obtain ⟨n', rest, hnames, rfl⟩ := ih h
          exact ⟨n, n' :: rest, List.forall_mem_cons.2 ⟨hn, hnames⟩, rfl⟩
        · cases h

/-- A walk without errors visits the entries below a directory, at the paths of their names. -/
theorem mem_walkContents_iff (t : d.IsTree) (found : d.find true root = .ok (l, e))
    (isDir : e.node = .directory) {depth : Nat}
    (noError : ∀ fault, .error fault ∉ d.walkContents depth root) :
    .ok (q, kind) ∈ d.walkContents depth root ↔
      ∃ m, m ≠ [] ∧ d.kind? (l ++ m) = some kind ∧ q = root.down m := by
  obtain ⟨-, links, -, route⟩ := names_of_find t found isDir
  have hdir : d.IsDir l := by
    obtain ⟨target, -, rfl, hget⟩ := of_find found
    exact isDir_of_get? hget isDir
  let b : Base := ⟨root, l, links⟩
  have stands : b.Stands d := ⟨t, hdir, route⟩
  have surveys := Base.surveys_walkContents stands depth (Base.Spells.base b)
    (fun l' e' hfind => by cases found.symm.trans hfind; exact (List.append_nil l).symm)
    (by rw [List.append_nil]; exact hdir)
  have hspells : ∀ {m : Location}, (∀ n ∈ m, IsName n) → b.Spells (root.down m) m :=
    fun hm => (Base.Spells.base b).down hm
  constructor
  · intro h
    obtain ⟨n, rest, hnames, rfl⟩ := exists_of_mem_walkContents t h
    obtain ⟨m, -, hm, hkind⟩ := surveys.sound _ kind h
    obtain rfl := hm.unique (hspells hnames)
    exact ⟨n :: rest, List.cons_ne_nil _ _, hkind, rfl⟩
  · rintro ⟨m, hne, hkind, rfl⟩
    obtain ⟨n, rest, rfl⟩ := List.exists_cons_of_ne_nil hne
    obtain ⟨q, hq, hm⟩ := surveys.complete noError _ kind ⟨n, rest, rfl⟩ hkind
    obtain ⟨n', rest', hnames, rfl⟩ := exists_of_mem_walkContents t hq
    have hunique : n :: rest = n' :: rest' := hm.unique (hspells hnames)
    rwa [hunique]

/-- Visits at paths that have not the same components. -/
def Apart (x y : Except WalkError (Path × Kind)) : Prop :=
  ∀ p k q k', x = .ok (p, k) → y = .ok (q, k') → p.components ≠ q.components

/-- What is visited below an entry has the name of the entry and another one after the components of
the directory. -/
theorem components_of_mem_walkContents (t : d.IsTree) (hn : IsName n) {depth : Nat}
    (h : .ok (q, kind) ∈ d.walkContents depth (Tree.inside p n)) :
    ∃ n' rest, q.components = p.components ++ .name n :: .name n' :: rest := by
  obtain ⟨n', rest, hnames, rfl⟩ := exists_of_mem_walkContents t h
  refine ⟨n', rest.map .name, ?_⟩
  rw [Path.components_down hnames, Path.components_inside hn, List.append_assoc]
  rfl

theorem walkContents_apart (t : d.IsTree) (depth : Nat) (p : Path) :
    (d.walkContents depth p).Pairwise Apart := by
  induction depth generalizing p with
  | zero => exact List.pairwise_singleton _ _
  | succ depth ih =>
    unfold walkContents
    cases hlist : d.list p with
    | error fault => exact List.pairwise_singleton _ _
    | ok names =>
      have hname : ∀ {n kind}, (n, kind) ∈ names → IsName n := fun hmem =>
        t.isName_of_list hlist hmem
      have distinct : names.Pairwise fun x y => x.1 ≠ y.1 := by
        obtain ⟨l, e, -, -, rfl⟩ := of_list hlist
        exact List.pairwise_map.1 (t.lists l).distinct
      have hpart : ∀ {n kind}, (n, kind) ∈ names → ∀ q k, .ok (q, k) ∈ Except.ok (Tree.inside p n, kind) ::
          (if kind = .directory then d.walkContents depth (Tree.inside p n) else []) →
          ∃ rest, q.components = p.components ++ .name n :: rest := by
        intro n kind hmem q k hq
        obtain heq | hq := List.mem_cons.1 hq
        · cases heq
          exact ⟨[], Path.components_inside (hname hmem)⟩
        · split at hq
          · obtain ⟨n', rest, hq⟩ := components_of_mem_walkContents t (hname hmem) hq
            exact ⟨.name n' :: rest, hq⟩
          · cases hq
      refine List.pairwise_flatMap.2 ⟨?_, distinct.imp_of_mem ?_⟩
      · rintro ⟨n, kind⟩ hmem
        refine List.pairwise_cons.2 ⟨?_, ?_⟩
        · rintro _ hy _ k q k' ⟨⟩ rfl heq
          split at hy
          · obtain ⟨n', rest, hq⟩ := components_of_mem_walkContents t (hname hmem) hy
            rw [hq, Path.components_inside (hname hmem)] at heq
            cases List.append_cancel_left heq
          · cases hy
        · split
          · exact ih _
          · exact .nil
      · rintro ⟨n, kind⟩ ⟨n', kind'⟩ hmem hmem' hne _ hx _ hy p k q k' rfl rfl heq
        obtain ⟨rest, hp⟩ := hpart hmem p k hx
        obtain ⟨rest', hq⟩ := hpart hmem' q k' hy
        rw [hp, hq] at heq
        cases List.append_cancel_left heq
        exact hne rfl

/-- A walk visits no two entries at paths with the same components. -/
theorem walkDown_apart (t : d.IsTree) (root : Path) : (d.walkDown root).Pairwise Apart := by
  have hcontents : ∀ kind, (.ok (root, kind) :: d.walkContents pathLimit root).Pairwise Apart := by
    refine fun kind => List.pairwise_cons.2 ⟨?_, walkContents_apart t _ _⟩
    rintro _ hy _ k q k' ⟨⟩ rfl heq
    obtain ⟨n, rest, hnames, rfl⟩ := exists_of_mem_walkContents t hy
    rw [Path.components_down hnames] at heq
    cases List.self_eq_append_right.1 heq
  unfold walkDown
  cases d.lookAt root with
  | error fault => exact List.pairwise_singleton _ _
  | ok x =>
    simp only
    split
    · exact List.pairwise_singleton _ _
    · exact hcontents _
    · cases d.find true root with
      | error fault => exact List.pairwise_singleton _ _
      | ok y =>
        simp only
        split
        · exact hcontents _
        · exact List.pairwise_singleton _ _

/-- A walk without errors down from a directory visits the directory, which is no file for it, and
what is below. -/
theorem walkDown_of_find (t : d.IsTree) (found : d.find true root = .ok (l, e))
    (isDir : e.node = .directory) (noError : ∀ fault, .error fault ∉ d.walkDown root) :
    ∃ kind, kind ≠ .file ∧ d.walkDown root = .ok (root, kind) :: d.walkContents pathLimit root := by
  have hkind : e.node.kind = .directory := kind_eq_directory_iff.2 isDir
  unfold walkDown at noError ⊢
  cases hlook : d.lookAt root with
  | error fault =>
    rw [hlook] at noError
    exact absurd List.mem_cons_self (noError _)
  | ok x =>
    obtain ⟨l', e'⟩ := x
    simp only
    by_cases hlink : e'.node.kind = .symlink
    · simp only [hlink, found, hkind, if_true]
      exact ⟨.symlink, nofun, rfl⟩
    · cases found.symm.trans (find_of_lookAt t hlook hlink)
      simp only [hkind]
      exact ⟨.directory, nofun, rfl⟩

/-! ## Test files -/

theorem mapM_eq_ok_iff {α β ε : Type} {f : α → Except ε β} {xs : List α} {ys : List β} :
    xs.mapM f = .ok ys ↔ List.Forall₂ (fun x y => f x = .ok y) xs ys := by
  induction xs generalizing ys with
  | nil => cases ys <;> simp [pure, Except.pure]
  | cons x xs ih =>
    rw [List.mapM_cons]
    cases hx : f x with
    | error e => cases ys <;> simp [bind, Except.bind, hx]
    | ok y =>
      cases hxs : xs.mapM f with
      | error e => cases ys <;> simp [bind, Except.bind, ← ih, hx, hxs]
      | ok ys' => cases ys <;> simp [bind, Except.bind, pure, Except.pure, ← ih, hx, hxs]

theorem eq_map_ok_iff {α ε : Type} {xs : List (Except ε α)} :
    (∃ ys : List α, xs = ys.map .ok) ↔ ∀ e, .error e ∉ xs := by
  constructor
  · rintro ⟨ys, rfl⟩ e he
    obtain ⟨y, -, hy⟩ := List.mem_map.1 he
    cases hy
  · intro h
    induction xs with
    | nil => exact ⟨[], rfl⟩
    | cons x xs ih =>
      obtain ⟨ys, rfl⟩ := ih fun e he => h e (List.mem_cons_of_mem x he)
      cases x with
      | error e => exact absurd List.mem_cons_self (h e)
      | ok y => exact ⟨y :: ys, rfl⟩

/-- The test files among visits, in the order of their paths. -/
def testFilesOf (visits : List (Path × Kind)) : List Path :=
  ((visits.filter fun (p, kind) => kind = .file && p.isTestFile).map Prod.fst).mergeSort Path.le

/-- There are test files of a path if its walk has no error. -/
theorem testFiles_eq_ok_iff : d.testFiles root = .ok files ↔
    ∃ visits, d.walkDown root = visits.map .ok ∧ files = testFilesOf visits := by
  have hvisits : ∀ visits, (d.walkDown root).mapM
      (fun visit => visit.mapError (RunError.discover root)) = .ok visits ↔
        d.walkDown root = visits.map .ok := by
    intro visits
    have hvisit : ∀ (x : Except WalkError (Path × Kind)) y,
        x.mapError (RunError.discover root) = .ok y ↔ x = .ok y := by
      rintro (fault | y) y' <;> simp [Except.mapError]
    simp only [mapM_eq_ok_iff, hvisit]
    rw [← List.forall₂_map_right_iff (f := Except.ok) (R := Eq), List.forall₂_eq_eq_eq]
  constructor
  · intro h
    unfold testFiles at h
    cases hwalk : (d.walkDown root).mapM fun visit => visit.mapError (RunError.discover root) with
    | error e => rw [hwalk] at h; cases h
    | ok visits =>
      rw [hwalk] at h
      cases h
      exact ⟨visits, (hvisits visits).1 hwalk, rfl⟩
  · rintro ⟨visits, hwalk, rfl⟩
    unfold testFiles
    rw [(hvisits visits).2 hwalk]
    rfl

theorem mem_testFilesOf {visits : List (Path × Kind)} :
    q ∈ testFilesOf visits ↔ (q, .file) ∈ visits ∧ q.isTestFile = true := by
  unfold testFilesOf
  rw [List.mem_mergeSort, List.mem_map]
  simp only [List.mem_filter, Bool.and_eq_true, decide_eq_true_iff]
  constructor
  · rintro ⟨⟨q, kind⟩, ⟨hmem, rfl, htest⟩, rfl⟩
    exact ⟨hmem, htest⟩
  · rintro ⟨hmem, htest⟩
    exact ⟨_, ⟨hmem, rfl, htest⟩, rfl⟩

/-- Test files are found once, and in their order. -/
theorem testFiles_increasing (t : d.IsTree) (h : d.testFiles root = .ok files) :
    files.Pairwise Path.Before := by
  obtain ⟨visits, hwalk, rfl⟩ := testFiles_eq_ok_iff.1 h
  have hapart : visits.Pairwise fun x y => x.1.components ≠ y.1.components := by
    have happart := walkDown_apart t root
    rw [hwalk, List.pairwise_map] at happart
    exact happart.imp fun {x y} h => h _ _ _ _ rfl rfl
  have hfiles : (testFilesOf visits).Pairwise fun p q => p.components ≠ q.components := by
    rw [testFilesOf, (List.mergeSort_perm _ _).pairwise_iff fun h => h.symm, List.pairwise_map]
    exact hapart.filter _
  have hsorted : (testFilesOf visits).Pairwise fun p q => p.le q = true := by
    unfold testFilesOf
    refine List.pairwise_mergeSort ?_ ?_ _
    · intro p q r hpq hqr
      exact Path.le_trans hpq hqr
    · intro p q
      rw [Bool.or_eq_true]
      exact p.le_total q
  exact hsorted.imp₂ (fun _ _ => Path.before_of_le) hfiles

/-- The test files that are found are those that the walk comes to. -/
theorem mem_testFiles (h : d.testFiles root = .ok files) :
    q ∈ files ↔ .ok (q, .file) ∈ d.walkDown root ∧ q.isTestFile = true := by
  obtain ⟨visits, hwalk, rfl⟩ := testFiles_eq_ok_iff.1 h
  rw [mem_testFilesOf, hwalk, List.mem_map]
  simp only [Except.ok.injEq, exists_eq_right]

/-- Disks with the same nodes have the same test files, and list them alike. -/
theorem SameNodes.testFiles (same : SameNodes d d') (t : d.IsTree) (t' : d'.IsTree)
    (h : d.testFiles root = .ok files) : d'.testFiles root = .ok files := by
  have hwalks := same.walkDown t t' root
  obtain ⟨visits, hwalk, -⟩ := testFiles_eq_ok_iff.1 h
  obtain ⟨visits', hwalk'⟩ := eq_map_ok_iff.2 fun fault hfault =>
    eq_map_ok_iff.1 ⟨visits, hwalk⟩ fault ((hwalks _).1 hfault)
  have h' : d'.testFiles root = .ok (testFilesOf visits') :=
    testFiles_eq_ok_iff.2 ⟨visits', hwalk', rfl⟩
  have increasing := testFiles_increasing t h
  have increasing' := testFiles_increasing t' h'
  have distinct : ∀ {files : List Path}, files.Pairwise Path.Before → files.Nodup :=
    fun hfiles => hfiles.imp fun hpq heq => by
      subst heq
      exact hpq.not_before hpq
  have perm : files.Perm (testFilesOf visits') := by
    refine (List.perm_ext_iff_of_nodup (distinct increasing) (distinct increasing')).2 fun q => ?_
    rw [mem_testFiles h, mem_testFiles h', hwalks]
  rw [h', perm.eq_of_pairwise (fun _ _ _ _ hpq hqp => absurd hqp hpq.not_before) increasing increasing']

/-! ## What paths stand for -/

/-- The files that a path stands for: if there is a directory, the files in it at any depth that have
names of test files, each once and in the order of their paths; else the path itself. -/
inductive StandsFor (d : Disk) (p : Path) : List Path → Prop
  | directory {l : Location} {e : Entry} {files : List Path} (found : d.find true p = .ok (l, e))
    (isDir : e.node = .directory) (increasing : files.Pairwise Path.Before)
    (exact : ∀ q, q ∈ files ↔ ∃ above n, d.kind? (l ++ (above ++ [n])) = some .file ∧
      Path.IsTestName n ∧ q = p.down (above ++ [n])) : StandsFor d p files
  | other (notDir : ∀ l e, d.find true p = .ok (l, e) → e.node ≠ .directory) : StandsFor d p [p]

/-- The test files of a directory. -/
theorem standsFor_testFiles (t : d.IsTree) (found : d.find true root = .ok (l, e))
    (isDir : e.node = .directory) (h : d.testFiles root = .ok files) : d.StandsFor root files := by
  refine .directory found isDir (testFiles_increasing t h) fun q => ?_
  obtain ⟨visits, hwalk, -⟩ := testFiles_eq_ok_iff.1 h
  have noError := eq_map_ok_iff.1 ⟨visits, hwalk⟩
  obtain ⟨kind, hkind, hcontents⟩ := walkDown_of_find t found isDir noError
  have hvisit : .ok (q, .file) ∈ d.walkDown root ↔
      ∃ m, m ≠ [] ∧ d.kind? (l ++ m) = some .file ∧ q = root.down m := by
    rw [hcontents, List.mem_cons, or_iff_right fun heq => by cases heq; exact hkind rfl]
    exact mem_walkContents_iff t found isDir fun fault hfault =>
      noError fault (hcontents ▸ List.mem_cons_of_mem _ hfault)
  rw [mem_testFiles h, hvisit]
  have hnames : ∀ {m : Location}, d.kind? (l ++ m) = some .file → ∀ n ∈ m, IsName n := by
    intro m hfile n hn
    have there : d.node? (l ++ m) ≠ none := by
      intro hnone
      rw [kind?, hnone] at hfile
      cases hfile
    exact t.isName_of_mem there hn
  constructor
  · rintro ⟨⟨m, hne, hfile, rfl⟩, htest⟩
    obtain ⟨above, n, rfl⟩ := (List.eq_nil_or_concat' m).resolve_left hne
    exact ⟨above, n, hfile, (Path.isTestFile_down (hnames hfile)).1 htest, rfl⟩
  · rintro ⟨above, n, hfile, htest, rfl⟩
    exact ⟨⟨_, by simp, hfile, rfl⟩, (Path.isTestFile_down (hnames hfile)).2 htest⟩

theorem isDirectory_eq_true_iff : d.isDirectory p = true ↔
    ∃ l e, d.find true p = .ok (l, e) ∧ e.node = .directory := by
  unfold isDirectory
  cases d.find true p with
  | error fault => simp
  | ok found =>
    obtain ⟨l, e⟩ := found
    simp [kind_eq_directory_iff]

theorem SameNodes.isDirectory (same : SameNodes d d') (p : Path) :
    d'.isDirectory p = d.isDirectory p := by
  have hfind := same.find true p
  unfold Disk.isDirectory
  generalize d'.find true p = found at hfind
  generalize d.find true p = found' at hfind
  cases hfind with
  | ok hfound => simp only [hfound.2]
  | error fault => rfl

/-- The files that paths stand for are those of each of them, in the order of the paths, and they do
not depend on the order in which the disk lists the entries of its directories. -/
theorem discover_ordered_union (tree : d.IsTree) (h : d.discover paths = .ok files) :
    (∃ parts, List.Forall₂ d.StandsFor paths parts ∧ files = parts.flatten) ∧
      ∀ d' : Disk, d'.entries.Perm d.entries → d'.workingDirectory = d.workingDirectory →
        d'.discover paths = .ok files := by
  obtain ⟨parts, hparts, rfl⟩ : ∃ parts, List.Forall₂
      (fun p part => (if d.isDirectory p then d.testFiles p else .ok [p]) = .ok part) paths parts ∧
        files = parts.flatten := by
    unfold discover at h
    cases hmap : paths.mapM fun p => if d.isDirectory p then d.testFiles p else .ok [p] with
    | error e => rw [hmap] at h; cases h
    | ok parts =>
      rw [hmap] at h
      cases h
      exact ⟨parts, mapM_eq_ok_iff.1 hmap, rfl⟩
  refine ⟨⟨parts, hparts.imp fun p part hpart => ?_, rfl⟩, fun d' perm working => ?_⟩
  · split at hpart
    · next hdir =>
      obtain ⟨l, e, found, isDir⟩ := isDirectory_eq_true_iff.1 hdir
      exact standsFor_testFiles tree found isDir hpart
    · next hdir =>
      cases hpart
      exact .other fun l e found isDir => hdir (isDirectory_eq_true_iff.2 ⟨l, e, found, isDir⟩)
  · obtain ⟨tree', same, -⟩ := SameNodes.of_perm tree perm working
    have hparts' : paths.mapM (fun p => if d'.isDirectory p then d'.testFiles p else .ok [p]) =
        .ok parts := by
      refine mapM_eq_ok_iff.2 (hparts.imp fun p part hpart => ?_)
      rw [same.isDirectory]
      split at hpart
      · next hdir => rw [if_pos hdir, same.testFiles tree tree' hpart]
      · next hdir => rw [if_neg hdir, hpart]
    unfold discover
    rw [hparts']
    rfl

/-- A link to a directory with directories in it, with other files and with a link that is not
followed, and a path where nothing is; the entries listed in their order and the other way around. -/
theorem discover_ordered_union_reversed :
    let entry : Node → Entry := fun node => ⟨node, 0o755, ⟨0, 0⟩, ⟨0, 0⟩⟩
    let r : Name := "r".toList
    let d : Disk := ⟨[([], entry .directory), ([r], entry .directory),
      ([r, "a".toList], entry .directory), ([r, "a".toList, ".t".toList], entry (.file 0 #[])),
      ([r, "a".toList, "n.txt".toList], entry (.file 1 #[])),
      ([r, "a".toList, "x.t".toList], entry (.file 2 #[])),
      ([r, "a-b".toList], entry .directory), ([r, "a-b".toList, "x.t".toList], entry (.file 3 #[])),
      ([r, "l".toList], entry (.symlink ⟨"/z"⟩)), (["k".toList], entry (.symlink ⟨"/r"⟩)),
      (["z".toList], entry .directory), (["z".toList, "y.t".toList], entry (.file 4 #[]))], 5, []⟩
    let paths : List Path := [⟨"k"⟩, ⟨"none"⟩]
    let files : List Path := [⟨"k/a/x.t"⟩, ⟨"k/a-b/x.t"⟩, ⟨"none"⟩]
    d.IsTree ∧ d.discover paths = .ok files ∧
      (∃ parts, List.Forall₂ d.StandsFor paths parts ∧ files = parts.flatten) ∧
      { d with entries := d.entries.reverse }.discover paths = .ok files := by
  intro entry r d paths files
  have tree : d.IsTree := .of_entries (by decide) rfl (by decide)
  have hwalk : d.walkDown ⟨"k"⟩ = [(⟨"k"⟩, .symlink), (⟨"k/a"⟩, .directory), (⟨"k/a/.t"⟩, .file),
      (⟨"k/a/n.txt"⟩, .file), (⟨"k/a/x.t"⟩, .file), (⟨"k/a-b"⟩, .directory), (⟨"k/a-b/x.t"⟩, .file),
      (⟨"k/l"⟩, .symlink)].map .ok := by
    decide +kernel
  have hfiles : d.testFiles ⟨"k"⟩ = .ok [⟨"k/a/x.t"⟩, ⟨"k/a-b/x.t"⟩] := by
    refine testFiles_eq_ok_iff.2 ⟨_, hwalk, ?_⟩
    rw [testFilesOf, List.mergeSort_of_pairwise (by decide +kernel)]
    decide +kernel
  have hmap : paths.mapM (fun p => if d.isDirectory p then d.testFiles p else .ok [p]) =
      .ok [[⟨"k/a/x.t"⟩, ⟨"k/a-b/x.t"⟩], [⟨"none"⟩]] := by
    refine mapM_eq_ok_iff.2 (.cons ?_ (.cons ?_ .nil))
    · rw [if_pos (by decide +kernel), hfiles]
    · rw [if_neg (by decide +kernel)]
  have hdiscover : d.discover paths = .ok files := by
    unfold discover
    rw [hmap]
    rfl
  obtain ⟨hparts, horder⟩ := discover_ordered_union tree hdiscover
  exact ⟨tree, hdiscover, hparts, horder _ (List.reverse_perm _) rfl⟩

end Disk

end TwinTrees
