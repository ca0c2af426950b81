import TwinTrees.Proofs.Site.Parent
import TwinTrees.Tree.Copy
import TwinTrees.Tree.Mutation
import TwinTrees.Tree.Remove
import TwinTrees.Tree.Stamp

/-!
# Making, copying and changing trees at a site

What commands do to files and trees agrees in all worlds that look the same to the test, as long as
the paths lead inside. Paths that are found on a walk down a tree inside lead inside as well.
-/

namespace TwinTrees.Site

variable {s : Site} {times : Bool} {env₁ env₂ : Environment} {d d₁ d₂ : Disk} {p : Path}
  {t₁ t₂ : Time}

/-- The visits of a walk down a tree inside are at paths that lead inside. -/
theorem leads_of_walkContents (tree : d.IsTree) (depth : Nat) (hp : s.Leads p) {q : Path}
    {kind : Kind} (h : .ok (q, kind) ∈ d.walkContents depth p) : s.Leads q := by
  induction depth generalizing p with
  | zero => cases List.mem_singleton.1 h
  | succ depth ih =>
    unfold Disk.walkContents at h
    cases hlist : d.list p with
    | error e => rw [hlist] at h; cases List.mem_singleton.1 h
    | ok names =>
      rw [hlist] at h
      obtain ⟨⟨n, k⟩, hx, hmem⟩ := List.mem_flatMap.1 h
      have hin := hp.inside (tree.isName_of_list hlist hx)
      obtain heq | hmem := List.mem_cons.1 hmem
      · cases heq; exact hin
      · split at hmem
        · exact ih hin hmem
        · cases hmem

theorem leads_of_walkDown (tree : d.IsTree) (hp : s.Leads p) {q : Path} {kind : Kind}
    (h : .ok (q, kind) ∈ d.walkDown p) : s.Leads q := by
  have hcontents : .ok (q, kind) ∈ d.walkContents pathLimit p → s.Leads q :=
    leads_of_walkContents tree _ hp
  unfold Disk.walkDown at h
  split at h
  · cases List.mem_singleton.1 h
  · split at h
    · cases List.mem_singleton.1 h; exact hp
    · obtain heq | h := List.mem_cons.1 h
      · cases heq; exact hp
      · exact hcontents h
    · split at h
      · cases List.mem_singleton.1 h
      · obtain heq | h := List.mem_cons.1 h
        · cases heq; exact hp
        · split at h
          · exact hcontents h
          · cases h

namespace Agrees

variable {P : Disk → Disk → Prop}

theorem writeChunk (f g : OpenFile) (n : Nat) :
    s.Agrees times env₁ env₂ (fun d₁ d₂ => s.SameFile d₁ d₂ f g) (Tree.writeChunk f n)
      (Tree.writeChunk g n) fun _ _ d₁ d₂ => s.SameFile d₁ d₂ f g := by
  refine (draw _).bind fun bytes bytes' => given (φ := bytes = bytes') (fun _ _ h => h.1) ?_
  rintro rfl
  refine change ?_
  rintro t₁ t₂ d₁ d₂ tw ht ⟨-, same⟩
  exact .ok ⟨tw.append same ht _, { same with
    left := same.left.store _
    right := same.right.store _ }⟩

theorem makeFile (hp : s.Leads p) (size : Nat) (ht : times = true → t₁ = t₂) :
    s.Agrees times env₁ env₂ P (Tree.makeFile p size t₁) (Tree.makeFile p size t₂) Done := by
  unfold Tree.makeFile
  refine (makeParent hp).bind fun _ _ => ?_
  refine bind (Q := fun f g d₁ d₂ => s.SameFile d₁ d₂ f g) (mapError (request ?_) _) fun f g => ?_
  · intro t₁ t₂ d₁ d₂ tw ht _
    exact (tw.createNew hp ht Tree.fileMode).mono fun x y h => ⟨h.moves, h.file⟩
  refine bind (Q := fun _ _ d₁ d₂ => s.SameFile d₁ d₂ f g) (forM_keeps fun n _ => writeChunk f g n)
    fun _ _ => change ?_
  intro _ _ d₁ d₂ tw _ same
  rw [← same.location]
  exact .ok ⟨tw.setTimesAt same.inside ht, trivial⟩

/-! ## Copying -/

theorem copyDirectory {target : Path} (ht : s.Leads target) (mode : Mode) :
    s.Agrees times env₁ env₂ P (Tree.copyDirectory target mode) (Tree.copyDirectory target mode)
      Done :=
  (makeDirectories ht mode).named _ _

theorem copyFile {target source : Path} (ht : s.Leads target) (hs : s.Leads source) (size : Nat) :
    s.Agrees times env₁ env₂ P (Tree.copyFile target source size)
      (Tree.copyFile target source size) Done := by
  unfold Tree.copyFile
  refine bind (Q := fun f g d₁ d₂ => s.SameFile d₁ d₂ f g)
    (named (ask fun d₁ d₂ tw _ => tw.openExisting hs) _ _) fun input input' => ?_
  refine bind (Q := fun f g d₁ d₂ => s.SameFile d₁ d₂ f g ∧ s.SameFile d₁ d₂ input input')
    (named (request ?_) _ _) fun copy copy' => ?_
  · intro t₁ t₂ d₁ d₂ tw htimes same
    exact (tw.openOrCreate ht htimes Tree.fileMode true).mono fun x y h =>
      ⟨h.moves, h.file, { same with
        left := h.left _ same.left
        right := h.right _ same.right }⟩
  refine bind (Q := fun b b' d₁ d₂ => b = b' ∧ s.SameFile d₁ d₂ copy copy') (ask ?_)
    fun bytes bytes' => given (φ := bytes = bytes') (fun _ _ h => h.1) ?_
  · rintro d₁ d₂ tw ⟨hcopy, hinput⟩
    exact .ok ⟨tw.load hinput, hcopy⟩
  rintro rfl
  refine bind (Q := Done) (change ?_) fun _ _ => ?_
  · rintro t₁ t₂ d₁ d₂ tw htimes ⟨-, same⟩
    exact .ok ⟨tw.append same htimes _, trivial⟩
  split
  · exact throw _
  · exact pure fun _ _ _ => trivial

/-- What is found at a path inside looks the same, and a link leads inside. -/
theorem lookAt (hp : s.Leads p) :
    s.Agrees times env₁ env₂ P (Action.ask fun d => d.lookAt p) (Action.ask fun d => d.lookAt p)
      fun x y _ _ => x.2.shown times = y.2.shown times ∧
        ∀ target, x.2.node = .symlink target → s.Leads target :=
  ask fun _ _ tw _ => (tw.lookAt hp).mono fun _ _ h => ⟨h.shown, fun _ hlink =>
    tw.left.enclosed h.inside ((Disk.node?_of_get? h.left).trans (congrArg some hlink))⟩

theorem copyEntry {target source : Path} (ht : s.Leads target) (hs : s.Leads source) :
    s.Agrees times env₁ env₂ P (Tree.copyEntry target source) (Tree.copyEntry target source)
      Done := by
  unfold Tree.copyEntry
  refine (named (lookAt hs) _ _).bind fun (l, a) (l', b) => given (fun _ _ => id) ?_
  rintro ⟨hshown, hleads⟩
  obtain ⟨ha, hb⟩ | ⟨i, j, bytes, ha, hb⟩ | ⟨path, ha, hb⟩ :=
    Node.shown_eq_cases (a := a.node) (b := b.node) (Entry.node_shown hshown)
  · simp only [ha, hb, Entry.mode_shown (a := a) (b := b) hshown]
    exact copyDirectory ht _
  · simp only [ha, hb]
    exact (makeParent ht).bind fun _ _ => copyFile ht hs _
  · simp only [ha, hb]
    refine (makeParent ht).bind fun _ _ => named (change fun t₁ t₂ d₁ d₂ tw htimes _ => ?_) _ _
    exact (tw.makeLink ht (hleads path ha) htimes).mono fun _ _ h => ⟨h, trivial⟩

/-- A copy of a tree, if its root is copied in the same way. -/
theorem copyLevels (root : Path) (depth : Nat) {target source : Path} (ht : s.Leads target)
    (hs : s.Leads source) {copySelf : Action CommandError Unit}
    (hself : s.Agrees times env₁ env₂ Any copySelf copySelf Done) :
    s.Agrees times env₁ env₂ Any (Tree.copyLevels root depth target source copySelf)
      (Tree.copyLevels root depth target source copySelf) Done := by
  induction depth generalizing target source copySelf with
  | zero => exact hself.bind fun _ _ => throw _
  | succ depth ih =>
    rw [Tree.copyLevels]
    refine bind (Q := fun x y _ _ => x = y ∧ ∀ names, x = .ok names → ∀ n ∈ names, IsName n.1)
      (ask fun d₁ d₂ tw _ => .ok ⟨tw.list hs, fun names h n hn =>
        tw.left.tree.isName_of_list h hn⟩) fun x y => given (fun _ _ => id) ?_
    rintro ⟨rfl, hnames⟩
    refine hself.anyway.bind fun _ _ => ?_
    cases x with
    | error fault => exact throw _
    | ok names =>
      refine (forM fun x hx => ?_).anyway
      obtain ⟨n, kind⟩ := x
      have hname := hnames names rfl (n, kind) (List.mem_mergeSort.1 hx)
      have hcopy : s.Agrees times env₁ env₂ Any _ _ Done :=
        copyEntry (ht.inside hname) (hs.inside hname)
      simp only
      split
      · exact ih (ht.inside hname) (hs.inside hname) hcopy
      · exact hcopy

theorem copyTree {target source : Path} (ht : s.Leads target) (hs : s.Leads source) :
    s.Agrees times env₁ env₂ P (Tree.copyTree target source) (Tree.copyTree target source)
      Done := by
  have ht' : s.Leads (target.join ⟨""⟩) := ht.join rfl nofun
  have hself : s.Agrees times env₁ env₂ Any _ _ Done := copyEntry ht' hs
  unfold Tree.copyTree
  refine ((lookAt hs).mapError _).bind fun (l, a) (l', b) => given (fun _ _ => id) ?_
  rintro ⟨hshown, -⟩
  have hkind : a.node.kind = b.node.kind := Entry.kind_eq hshown
  simp only [hkind]
  have hrest : ∀ {x y : Entry} {P : Disk → Disk → Prop}, x.node.kind = y.node.kind →
      s.Agrees times env₁ env₂ P
        (if x.node.kind = .directory then Tree.copyLevels source pathLimit (target.join ⟨""⟩) source
          (Tree.copyEntry (target.join ⟨""⟩) source) else Tree.copyEntry (target.join ⟨""⟩) source)
        (if y.node.kind = .directory then Tree.copyLevels source pathLimit (target.join ⟨""⟩) source
          (Tree.copyEntry (target.join ⟨""⟩) source) else Tree.copyEntry (target.join ⟨""⟩) source)
        Done := by
    intro x y P hxy
    rw [hxy]
    split
    · exact (copyLevels source pathLimit ht' hs hself).anyway
    · exact hself.anyway
  split
  · exact bind (Q := fun x y _ _ => x.node.kind = y.node.kind)
      (map (Q := fun x y _ _ => x.2.node.kind = y.2.node.kind)
        (mapError (ask fun _ _ tw _ => (tw.find hs true).mono fun _ _ h => Entry.kind_eq h.shown) _)
        fun _ _ _ _ h => h)
      fun x y => given (fun _ _ => id) hrest
  · exact bind (Q := fun x y _ _ => x.node.kind = y.node.kind) (pure fun _ _ _ => hkind)
      fun x y => given (fun _ _ => id) hrest

/-! ## Times and changes -/

theorem stamp (hp : s.Leads p) (ht : times = true → t₁ = t₂) :
    s.Agrees times env₁ env₂ P (Tree.stamp t₁ p) (Tree.stamp t₂ p) Done :=
  named (change fun _ _ _ _ tw _ _ => (tw.setTimes hp ht).mono fun _ _ h => ⟨h, trivial⟩) _ _

theorem stampKind (hp : s.Leads p) (ht : times = true → t₁ = t₂) (kind : Kind) :
    s.Agrees times env₁ env₂ P (Tree.stampKind t₁ kind p) (Tree.stampKind t₂ kind p) Done := by
  unfold Tree.stampKind
  refine bind (Q := fun x y _ _ => x = y ∧ ∀ q k, .ok (q, k) ∈ x → s.Leads q)
    (ask fun d₁ d₂ tw _ => .ok ⟨tw.walkDown hp, fun q k h =>
      leads_of_walkDown tw.left.tree hp h⟩) fun x y => given (fun _ _ => id) ?_
  rintro ⟨rfl, hleads⟩
  refine (forM fun visit hvisit => ?_).anyway
  cases visit with
  | error e => exact throw _
  | ok visit =>
    obtain ⟨q, k⟩ := visit
    simp only
    split
    · exact stamp (hleads q k hvisit) ht
    · exact pure fun _ _ _ => trivial

theorem stampTrees {roots : List Path} (h : ∀ p ∈ roots, s.Leads p)
    (ht : times = true → t₁ = t₂) :
    s.Agrees times env₁ env₂ P (Tree.stampTrees roots t₁) (Tree.stampTrees roots t₂) Done :=
  (forM fun p hp => stampKind (h p hp) ht .file).anyway.bind fun _ _ =>
    (forM fun p hp => stampKind (h p hp) ht .directory).anyway

theorem mutate (hp : s.Leads p) (min max : Nat) :
    s.Agrees times env₁ env₂ P (Tree.mutate p min max) (Tree.mutate p min max) Equal := by
  unfold Tree.mutate
  refine bind (Q := fun f g d₁ d₂ => s.SameFile d₁ d₂ f g)
    (named (ask fun d₁ d₂ tw _ => tw.openExisting hp) _ _) fun f g => ?_
  refine bind (Q := fun b b' d₁ d₂ => b = b' ∧ s.SameFile d₁ d₂ f g) (ask ?_)
    fun bytes bytes' => given (φ := bytes = bytes') (fun _ _ h => h.1) ?_
  · intro d₁ d₂ tw same
    exact .ok ⟨tw.load same, same⟩
  rintro rfl
  refine (tryDraw _).bind fun writes writes' => given (φ := writes = writes') (fun _ _ h => h.1) ?_
  rintro rfl
  refine (draw _).bind fun x y => given (φ := x = y) (fun _ _ h => h.1) ?_
  rintro rfl
  refine bind (Q := fun _ _ d₁ d₂ => s.SameFile d₁ d₂ f g) (change ?_) fun _ _ => ?_
  · rintro t₁ t₂ d₁ d₂ tw ht ⟨-, -, -, same⟩
    exact .ok ⟨tw.store same ht _, { same with
      left := same.left.store _
      right := same.right.store _ }⟩
  refine bind (Q := Done) (change ?_) fun _ _ => pure fun _ _ _ => rfl
  intro t₁ t₂ d₁ d₂ tw ht same
  rw [← same.location]
  exact .ok ⟨tw.setTimesAt same.inside ht, trivial⟩

theorem isThere (hp : s.Leads p) :
    s.Agrees times env₁ env₂ P (Tree.isThere p) (Tree.isThere p) Equal := by
  refine ask fun d₁ d₂ tw _ => ?_
  have h := tw.lookAt hp
  revert h
  generalize d₁.lookAt p = x, d₂.lookAt p = y
  rintro (⟨-⟩ | e)
  · exact .ok rfl
  · simp only
    split
    · exact .ok rfl
    · exact .error _

end Agrees

end TwinTrees.Site
