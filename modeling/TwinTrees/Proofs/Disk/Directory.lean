import TwinTrees.Proofs.Action
import TwinTrees.Proofs.Disk.Walk
import TwinTrees.Tree.Make

/-!
# Making directories on a disk

A path names a directory if and only if there is a way along it to one. Making a directory adds an
entry at the end of such a way, or fails; making it with the directories above it fails or leaves
the directory there (`Tree.isDirectory_of_makeDirectories`). If it is there before, nothing changes
(`Tree.makeDirectories_of_isDirectory`).
-/

namespace TwinTrees

/-- The path can be followed: it is not empty, not too long, and a text that file names can be in. -/
structure Path.IsValid (p : Path) : Prop where
  noNul : p.hasNul = false
  nonempty : p.text.isEmpty = false
  short : Text.byteLength p.text.toList < pathLimit

/-- What a valid path goes on from is valid. -/
theorem Path.IsValid.of_join {p q : Path} (h : (p.join q).IsValid) (relative : q.isAbsolute = false)
    (nonempty : p.text.isEmpty = false) : p.IsValid := by
  obtain ⟨rest, hrest⟩ := Path.text_prefix_join (p := p) relative
  have hnul := h.noNul
  have hshort := h.short
  rw [Path.hasNul, ← hrest, List.contains_append, Bool.or_eq_false_iff] at hnul
  rw [← hrest, Text.byteLength_append] at hshort
  exact ⟨hnul.1, nonempty, by omega⟩

namespace Disk

variable {d d' d₁ d₂ : Disk} {p : Path} {l dir : Location} {n : Name} {k : Nat} {now : Time}
  {mode : Mode} {last : LastLink}

theorem target_of_isValid (h : p.IsValid) (last : LastLink) :
    d.target last p = (d.proceed last linkLimit p.endsInSlash (p.startFrom d.workingDirectory)
      .root p.steps).mapError .os := by
  rw [target_eq, h.noNul, if_neg Bool.false_ne_true, h.nonempty, if_neg Bool.false_ne_true,
    if_neg (Nat.not_le_of_lt h.short)]

theorem of_target_eq_ok {target : Target} (h : d.target last p = .ok target) :
    p.IsValid ∧ d.proceed last linkLimit p.endsInSlash (p.startFrom d.workingDirectory) .root
      p.steps = .ok target := by
  rw [target_eq] at h
  split at h
  · cases h
  · next hnul =>
    split at h
    · cases h
    · next hempty =>
      split at h
      · cases h
      · next hlong =>
        refine ⟨⟨Bool.eq_false_iff.2 hnul, Bool.eq_false_iff.2 hempty, Nat.lt_of_not_le hlong⟩, ?_⟩
        revert h
        generalize d.proceed _ _ _ _ _ _ = x
        cases x with
        | error e => exact nofun
        | ok target' => exact fun h => by cases h; rfl

/-- There is a way along the path to the location, with no more links than can be followed. -/
def Names (d : Disk) (p : Path) (l : Location) : Prop :=
  p.IsValid ∧ ∃ k ≤ linkLimit, d.Route k (p.startFrom d.workingDirectory) p.steps l

theorem isDirectory_iff (t : d.IsTree) :
    d.isDirectory p = true ↔ ∃ l, d.Names p l ∧ d.IsDir l := by
  constructor
  · intro h
    unfold isDirectory at h
    cases hfind : d.find true p with
    | error e => rw [hfind] at h; cases h
    | ok found =>
      obtain ⟨l, e⟩ := found
      rw [hfind] at h
      have hdir : e.node = .directory := kind_eq_directory_iff.1 (beq_iff_eq.1 h)
      obtain ⟨target, htarget, rfl, hget⟩ := of_find hfind
      rw [Bool.true_or, if_pos rfl] at htarget
      obtain ⟨hvalid, hproceed⟩ := of_target_eq_ok htarget
      have hisDir := isDir_of_get? hget hdir
      obtain ⟨k, hk, r⟩ := (walks_of_proceed hproceed).route_follow hisDir
      exact ⟨_, ⟨hvalid, k, hk, r⟩, hisDir⟩
  · rintro ⟨l, ⟨hvalid, k, hk, r⟩, hdir⟩
    obtain ⟨e, he, hnode⟩ := isDir_iff.1 hdir
    unfold isDirectory
    rw [r.find t hk hvalid.noNul hvalid.nonempty hvalid.short he hnode]
    simp only [hnode]
    rfl

/-- What is there cannot be made. -/
theorem makeDirectory_of_there {target : Target} (htarget : d.target .keep p = .ok target)
    (there : ∀ dir n slash, target = .name dir n slash →
      isTooLong n = false ∧ d.node? (dir ++ [n]) ≠ none) :
    d.makeDirectory now p mode = .error (.os Errno.alreadyExists) := by
  unfold Disk.makeDirectory
  rw [htarget]
  cases target with
  | directory l e => rfl
  | name dir n slash =>
    obtain ⟨hshort, hnode⟩ := there dir n slash rfl
    obtain ⟨e, he⟩ := Option.ne_none_iff_exists'.1 fun hnone => hnode (node?_eq_none_iff.2 hnone)
    simp only [bind, Except.bind, Except.mapError, Disk.child?, hshort, he]
    rfl

theorem makeDirectory_of_isDirectory (t : d.IsTree) (h : d.isDirectory p = true) :
    d.makeDirectory now p mode = .error (.os Errno.alreadyExists) := by
  obtain ⟨l, ⟨hvalid, k, hk, r⟩, -⟩ := (isDirectory_iff t).1 h
  obtain ⟨target, hwalks, hthere⟩ : ∃ target, d.Walks .keep linkLimit p.endsInSlash
      (p.startFrom d.workingDirectory) .root p.steps target ∧ _ := r.walks_keep t hk
  have htarget : d.target .keep p = .ok target := by
    rw [target_of_isValid hvalid, hwalks.proceed]
    rfl
  refine makeDirectory_of_there htarget fun dir n slash heq => ?_
  exact ⟨Route.not_isTooLong t (hthere dir n slash heq), hthere dir n slash heq⟩

/-- The disk is a tree, and the path starts at a directory. -/
structure IsSound (d : Disk) (p : Path) : Prop extends d.IsTree where
  start : d.IsDir (p.startFrom d.workingDirectory)

theorem IsSound.of_isAbsolute_eq {q : Path} (h : d.IsSound p) (hq : q.isAbsolute = p.isAbsolute) :
    d.IsSound q where
  toIsTree := h.toIsTree
  start := by
    rw [Path.startFrom, hq]
    exact h.start

theorem IsSound.of_working (tree : d.IsTree) (working : d.IsDir d.workingDirectory) :
    d.IsSound p :=
  ⟨tree, tree.isDir_startFrom working p⟩

/-- What was made when a directory was made at the end of a path. -/
structure Made (d : Disk) (now : Time) (p : Path) (mode : Mode) (d' : Disk) (dir : Location)
    (n : Name) : Prop where
  valid : p.IsValid
  steps : ∃ before, p.steps = before ++ [.name n] ∧
    ∃ k ≤ linkLimit, d.Route k (p.startFrom d.workingDirectory) before dir
  isDir : d.IsDir dir
  free : d.node? (dir ++ [n]) = none
  isName : IsName n
  eq : d' = d.addEntry now dir n .directory (d.directoryMode dir mode)

theorem made_of_makeDirectory (h : d.IsSound p) (hmake : d.makeDirectory now p mode = .ok d') :
    ∃ dir n, d.Made now p mode d' dir n := by
  unfold makeDirectory at hmake
  cases htarget : d.target .keep p with
  | error e => rw [htarget] at hmake; cases hmake
  | ok target =>
    rw [htarget] at hmake
    obtain ⟨hvalid, hproceed⟩ := of_target_eq_ok htarget
    obtain ⟨k, hk, ⟨l, e, rfl, -⟩ | ⟨dir, n, before, rfl, hsteps, r⟩⟩ :=
      (walks_of_proceed hproceed).route_keep
    · cases hmake
    · simp only [bind, Except.bind] at hmake
      cases hchild : d.child? dir n with
      | error e => rw [hchild] at hmake; cases hmake
      | ok found =>
        rw [hchild] at hmake
        cases found with
        | some e => cases hmake
        | none =>
          cases hmake
          obtain ⟨hshort, hfree⟩ := of_child?_eq_ok hchild
          obtain ⟨hstep, hslash⟩ := Path.mem_steps_name (p := p) (n := n) (by rw [hsteps]; simp)
          exact ⟨dir, n, {
            valid := hvalid
            steps := ⟨before, hsteps, k, hk, r⟩
            isDir := r.isDir_end h.toIsTree h.start
            free := node?_eq_none_iff.2 hfree
            isName := ⟨hstep, hslash, hshort⟩
            eq := rfl }⟩

/-- Ways lead through a disk as before after an entry was added. -/
theorem Route.addEntry {node : Node} {cur : Location} {steps : List Step}
    (r : d.Route k cur steps l) (free : d.node? (dir ++ [n]) = none) :
    (d.addEntry now dir n node mode).Route k cur steps l := by
  have hkeep : ∀ m node', d.node? m = some node' →
      (d.addEntry now dir n node mode).node? m = some node' := by
    intro m node' hm
    rw [node?_addEntry, if_neg, hm]
    rintro rfl
    rw [free] at hm
    cases hm
  exact r.mono (fun m => hkeep m _) fun m target => hkeep m _

namespace Made

variable (m : d.Made now p mode d' dir n)
include m

theorem node? (l : Location) :
    d'.node? l = if l = dir ++ [n] then some .directory else d.node? l := by
  rw [m.eq, node?_addEntry]

theorem node?_of_some {node : Node} (h : d.node? l = some node) : d'.node? l = some node := by
  rw [m.node?, if_neg, h]
  rintro rfl
  rw [m.free] at h
  cases h

theorem workingDirectory : d'.workingDirectory = d.workingDirectory := by
  rw [m.eq]
  rfl

theorem isSound (h : d.IsSound p) : d'.IsSound p where
  toIsTree := m.eq ▸ h.toIsTree.addEntry m.isDir m.free m.isName
  start := by
    rw [m.workingDirectory]
    exact m.node?_of_some h.start

theorem isDirectory (h : d.IsSound p) : d'.isDirectory p = true := by
  obtain ⟨before, hsteps, k, hk, r⟩ := m.steps
  refine (isDirectory_iff (m.isSound h).toIsTree).2 ⟨dir ++ [n], ⟨m.valid, k, hk, ?_⟩, ?_⟩
  · rw [hsteps, m.eq]
    refine (r.addEntry m.free).append (.single ?_)
    exact node?_addEntry.trans (if_pos rfl)
  · exact (m.node? _).trans (if_pos rfl)

end Made

end Disk

namespace Path

theorem ancestors_eq (p : Path) : ∃ above, p.ancestors = p :: above := by
  unfold ancestors
  cases p.segments.length with
  | zero => exact ⟨[], rfl⟩
  | succ n => exact ⟨_, rfl⟩

/-- The steps of the paths above a path are the first ones of its own. -/
theorem of_mem_ancestorsUpTo {n : Nat} {p q : Path} (h : q ∈ p.ancestorsUpTo n) :
    q.isAbsolute = p.isAbsolute ∧ q.steps <+: p.steps := by
  induction n generalizing p with
  | zero =>
    obtain rfl := List.mem_singleton.1 h
    exact ⟨rfl, List.prefix_rfl⟩
  | succ n ih =>
    obtain rfl | h := List.mem_cons.1 h
    · exact ⟨rfl, List.prefix_rfl⟩
    · cases hparent : p.parent? with
      | none => rw [hparent] at h; cases h
      | some above =>
        rw [hparent] at h
        obtain ⟨habs, hsteps⟩ := ih h
        obtain ⟨before, st, after, heq, -⟩ := steps_parent hparent
        refine ⟨habs.trans (isAbsolute_parent hparent), hsteps.trans ?_⟩
        rw [heq, List.append_assoc]
        exact List.prefix_append _ _

theorem of_mem_ancestors {p q : Path} (h : q ∈ p.ancestors) :
    q.isAbsolute = p.isAbsolute ∧ q.steps <+: p.steps :=
  of_mem_ancestorsUpTo h

end Path

namespace Tree

variable {p : Path} {mode : Mode} {w w' : World}

theorem run_settle (fault : IoError) (w : World) :
    (makeDirectoriesAlong.settle p fault).run w =
      (if w.disk.isDirectory p then .ok () else .error fault, w) := rfl

/-- What every attempt to make one of the directories keeps is kept. -/
theorem makeDirectoriesAlong_keeps {I : World → Prop} {paths : List Path}
    (h : ∀ p ∈ paths, ∀ w, I w → I ((Action.change (ε := IoError) fun t d =>
      d.makeDirectory t p mode).run w).2) (w : World) (hw : I w) :
    I ((makeDirectoriesAlong mode paths).run w).2 := by
  induction paths generalizing w with
  | nil => exact hw
  | cons p above ih =>
    have hp := h p List.mem_cons_self
    have habove := ih fun q hq => h q (List.mem_cons_of_mem p hq)
    rw [makeDirectoriesAlong]
    split
    · exact hw
    · rw [Action.run_bind, Action.run_attempt]
      have hfirst := hp w hw
      generalize (Action.change _).run w = x at hfirst ⊢
      obtain ⟨x, w₁⟩ := x
      cases x with
      | ok u => exact hfirst
      | error fault =>
        simp only
        split
        · rw [Action.run_bind]
          have hsecond := habove w₁ hfirst
          generalize (makeDirectoriesAlong mode above).run w₁ = x at hsecond ⊢
          obtain ⟨x, w₂⟩ := x
          cases x with
          | error e => exact hsecond
          | ok u =>
            simp only
            rw [Action.run_bind, Action.run_attempt]
            have hthird := hp w₂ hsecond
            generalize (Action.change _).run w₂ = x at hthird ⊢
            obtain ⟨x, w₃⟩ := x
            cases x with
            | ok u => exact hthird
            | error fault => exact hthird
        · exact hfirst

/-- Where a directory cannot be made, and not because one above it is missing, none is made. -/
theorem makeDirectories_of_fault {fault : IoError} (hne : p.text.isEmpty = false)
    (hmake : w.disk.makeDirectory (Action.time w) p mode = .error fault)
    (hfault : fault ≠ .os Errno.noEntry) :
    (makeDirectories p mode).run w =
      (if w.disk.isDirectory p then .ok () else .error fault, Action.tick w) := by
  obtain ⟨above, habove⟩ := p.ancestors_eq
  unfold makeDirectories
  rw [habove, makeDirectoriesAlong, hne, if_neg Bool.false_ne_true, Action.run_bind,
    Action.run_attempt, Action.run_change, hmake]
  simp only
  rw [if_neg hfault, run_settle, show (Action.tick w).disk = w.disk from rfl]

/-- A directory that is there is left as it is. -/
theorem makeDirectories_of_isDirectory (t : w.disk.IsTree) (h : w.disk.isDirectory p = true) :
    (makeDirectories p mode).run w = (.ok (), Action.tick w) := by
  obtain ⟨l, ⟨hvalid, -⟩, -⟩ := (Disk.isDirectory_iff t).1 h
  rw [makeDirectories_of_fault hvalid.nonempty (Disk.makeDirectory_of_isDirectory t h) (by decide),
    if_pos h]

/-- A directory that can be made at once is the only one that is made. -/
theorem makeDirectories_of_made {d : Disk} (hne : p.text.isEmpty = false)
    (made : w.disk.makeDirectory (Action.time w) p mode = .ok d) :
    (makeDirectories p mode).run w = (.ok (), { Action.tick w with disk := d }) := by
  obtain ⟨above, habove⟩ := p.ancestors_eq
  unfold makeDirectories
  rw [habove, makeDirectoriesAlong, hne, if_neg Bool.false_ne_true, Action.run_bind,
    Action.run_attempt, Action.run_change, made]
  rfl

/-- What making directories leaves alone: nothing but the disk and the clock has changed, and the
disk is sound. -/
structure OnlyDisk (p : Path) (w w' : World) : Prop where
  sound : w'.disk.IsSound p
  working : w'.disk.workingDirectory = w.disk.workingDirectory
  source : w'.source = w.source
  reading : w'.clock.reading = w.clock.reading
  position : w.clock.position ≤ w'.clock.position
  journal : w'.journal = w.journal

theorem OnlyDisk.attempt {q : Path} (h : OnlyDisk p w w') (mode : Mode)
    (hq : q.isAbsolute = p.isAbsolute) :
    OnlyDisk p w ((Action.change (ε := IoError) fun t d => d.makeDirectory t q mode).run w').2 ∧
      w.clock.position < ((Action.change (ε := IoError) fun t d =>
        d.makeDirectory t q mode).run w').2.clock.position := by
  have hlt : w.clock.position < (Action.tick w').clock.position := Nat.lt_succ_of_le h.position
  rw [Action.run_change]
  cases hmake : w'.disk.makeDirectory (Action.time w') q mode with
  | error e => exact ⟨⟨h.sound, h.working, h.source, h.reading, Nat.le_of_lt hlt, h.journal⟩, hlt⟩
  | ok d =>
    obtain ⟨dir, n, made⟩ := Disk.made_of_makeDirectory (h.sound.of_isAbsolute_eq hq) hmake
    have hsound := (made.isSound (h.sound.of_isAbsolute_eq hq)).of_isAbsolute_eq hq.symm
    exact ⟨⟨hsound, made.workingDirectory.trans h.working, h.source, h.reading, Nat.le_of_lt hlt,
      h.journal⟩, hlt⟩

theorem onlyDisk_makeDirectoriesAlong (h : OnlyDisk p w w') (mode : Mode) {paths : List Path}
    (hpaths : ∀ q ∈ paths, q.isAbsolute = p.isAbsolute) :
    OnlyDisk p w ((makeDirectoriesAlong mode paths).run w').2 :=
  makeDirectoriesAlong_keeps (I := OnlyDisk p w) (fun q hq _ hw => (hw.attempt mode (hpaths q hq)).1) w' h

/-- An attempt to make a directory leaves it there if it is not refused, or if the refusal does not
count. The clock has been read. -/
theorem of_attempt (h : OnlyDisk p w w') {onError : IoError → Action IoError Unit}
    (herror : ∀ fault w₁, OnlyDisk p w w₁ → w.clock.position < w₁.clock.position →
      ((onError fault).run w₁).1 = .ok () →
      ((onError fault).run w₁).2.disk.isDirectory p = true ∧
        w.clock.position < ((onError fault).run w₁).2.clock.position)
    (hok : ((do
      match ← (Action.change fun t d => d.makeDirectory t p mode).attempt with
      | .ok () => return
      | .error fault => onError fault : Action IoError Unit).run w').1 = .ok ()) :
    ((do
      match ← (Action.change fun t d => d.makeDirectory t p mode).attempt with
      | .ok () => return
      | .error fault => onError fault : Action IoError Unit).run w').2.disk.isDirectory p = true ∧
    w.clock.position < ((do
      match ← (Action.change fun t d => d.makeDirectory t p mode).attempt with
      | .ok () => return
      | .error fault => onError fault : Action IoError Unit).run w').2.clock.position := by
  obtain ⟨honly, hlt⟩ := h.attempt mode rfl
  rw [Action.run_bind, Action.run_attempt] at hok ⊢
  rw [Action.run_change] at hok honly hlt ⊢
  cases hmake : w'.disk.makeDirectory (Action.time w') p mode with
  | ok d =>
    rw [hmake] at hlt
    obtain ⟨dir, n, made⟩ := Disk.made_of_makeDirectory h.sound hmake
    exact ⟨made.isDirectory h.sound, hlt⟩
  | error fault =>
    rw [hmake] at hok honly hlt
    exact herror fault _ honly hlt hok

/-- Once a directory was made without a failure, it is there, and the clock has been read. -/
theorem of_makeDirectories (mode : Mode) (h : w.disk.IsSound p) (hne : p.text.isEmpty = false)
    (hok : ((makeDirectories p mode).run w).1 = .ok ()) :
    ((makeDirectories p mode).run w).2.disk.isDirectory p = true ∧
      w.clock.position < ((makeDirectories p mode).run w).2.clock.position := by
  have hrefl : OnlyDisk p w w := ⟨h, rfl, rfl, rfl, Nat.le_refl _, rfl⟩
  have hsettle : ∀ fault w₁, OnlyDisk p w w₁ → w.clock.position < w₁.clock.position →
      ((makeDirectoriesAlong.settle p fault).run w₁).1 = .ok () →
      ((makeDirectoriesAlong.settle p fault).run w₁).2.disk.isDirectory p = true ∧
        w.clock.position < ((makeDirectoriesAlong.settle p fault).run w₁).2.clock.position := by
    intro fault w₁ _ hlt hsettled
    rw [run_settle] at hsettled ⊢
    simp only at hsettled ⊢
    split at hsettled
    · next hdir => exact ⟨hdir, hlt⟩
    · cases hsettled
  obtain ⟨above, habove⟩ := p.ancestors_eq
  have habs : ∀ q ∈ above, q.isAbsolute = p.isAbsolute := fun q hq =>
    (Path.of_mem_ancestors (p := p) (by rw [habove]; exact List.mem_cons_of_mem p hq)).1
  unfold makeDirectories at hok ⊢
  rw [habove, makeDirectoriesAlong, hne, if_neg Bool.false_ne_true] at hok ⊢
  refine of_attempt hrefl (fun fault w₁ h₁ hlt hok₁ => ?_) hok
  by_cases hfault : fault = .os Errno.noEntry
  · rw [if_pos hfault, Action.run_bind] at hok₁ ⊢
    have honly := onlyDisk_makeDirectoriesAlong h₁ mode habs
    generalize (makeDirectoriesAlong mode above).run w₁ = x at honly hok₁ ⊢
    obtain ⟨x, w₂⟩ := x
    cases x with
    | error e => cases hok₁
    | ok u => exact of_attempt honly hsettle hok₁
  · rw [if_neg hfault] at hok₁ ⊢
    exact hsettle fault w₁ h₁ hlt hok₁

end Tree

/-! ## Making directories on disks that look the same -/

namespace Disk

variable {d₁ d₂ : Disk} {t₁ t₂ : Time} {p : Path} {mode : Mode} {last : LastLink} {links : Nat}
  {slash : Bool} {cur : Location} {e : Ending} {steps : List Step}

/-- The disks look the same everywhere, but for times. -/
def SameTree (d₁ d₂ : Disk) : Prop := Alike false (fun _ => True) d₁ d₂

namespace SameTree

theorem proceed (h : SameTree d₁ d₂) :
    d₁.proceed last links slash cur e steps = d₂.proceed last links slash cur e steps := by
  refine proceed_congr fun l => ?_
  obtain ⟨h₁, h₂⟩ | ⟨h₁, h₂⟩ | ⟨i, j, bytes, h₁, h₂⟩ | ⟨target, h₁, h₂⟩ :=
    h.node?_cases (l := l) trivial
  · exact .inl (h₁.trans h₂.symm)
  · exact .inl (h₁.trans h₂.symm)
  · exact .inr ⟨⟨i, bytes, h₁⟩, j, bytes, h₂⟩
  · exact .inl (h₁.trans h₂.symm)

theorem target (h : SameTree d₁ d₂) (last : LastLink) (p : Path) :
    d₁.target last p = d₂.target last p := by
  rw [target_eq, target_eq, h.proceed, h.workingDirectory]

/-- The same paths name the same locations. -/
theorem isDirectory (h : SameTree d₁ d₂) (tree₁ : d₁.IsTree) (tree₂ : d₂.IsTree) (p : Path) :
    d₁.isDirectory p = d₂.isDirectory p := by
  have hnames : ∀ {d d' : Disk}, SameTree d d' → (∃ l, d.Names p l ∧ d.IsDir l) →
      ∃ l, d'.Names p l ∧ d'.IsDir l := by
    rintro d d' h ⟨l, ⟨hvalid, k, hk, r⟩, hdir⟩
    have hisDir : ∀ m, d.IsDir m → d'.IsDir m := by
      intro m hm
      obtain ⟨h₁, -⟩ | ⟨-, h₂⟩ | ⟨i, j, bytes, h₁, -⟩ | ⟨target, h₁, -⟩ :=
        h.node?_cases (l := m) trivial
      · rw [IsDir, h₁] at hm; cases hm
      · exact h₂
      · rw [IsDir, h₁] at hm; cases hm
      · rw [IsDir, h₁] at hm; cases hm
    refine ⟨l, ⟨hvalid, k, hk, ?_⟩, hisDir l hdir⟩
    rw [← h.workingDirectory]
    refine r.mono hisDir fun m target hm => ?_
    obtain ⟨h₁, -⟩ | ⟨h₁, -⟩ | ⟨i, j, bytes, h₁, -⟩ | ⟨target, h₁, h₂⟩ :=
      h.node?_cases (l := m) trivial
    · rw [h₁] at hm; cases hm
    · rw [IsDir, hm] at h₁; cases h₁
    · rw [h₁] at hm; cases hm
    · rw [h₁] at hm; cases hm; exact h₂
  rw [Bool.eq_iff_iff, isDirectory_iff tree₁, isDirectory_iff tree₂]
  exact ⟨hnames h, hnames h.symm⟩

theorem makeDirectory (h : SameTree d₁ d₂) (t₁ t₂ : Time) (p : Path) (mode : Mode) :
    Both SameTree (d₁.makeDirectory t₁ p mode) (d₂.makeDirectory t₂ p mode) := by
  unfold Disk.makeDirectory
  rw [← h.target]
  cases d₁.target .keep p with
  | error e => exact .error e
  | ok target =>
    cases target with
    | directory l e => exact .error _
    | name dir n slash =>
      simp only [bind, Except.bind, child?]
      cases isTooLong n with
      | true => exact .error _
      | false =>
        obtain ⟨h₁, h₂⟩ | ⟨e₁, e₂, h₁, h₂, -⟩ := h.get?_cases (l := dir ++ [n]) trivial
        · simp only [h₁, h₂, h.directoryMode (l := dir) trivial]
          exact .ok (h.addEntry (fun htimes => by cases htimes) dir n rfl _)
        · simp only [h₁, h₂]
          exact .error _

end SameTree

end Disk

namespace Tree

/-- The disks of two worlds are sound for a path and look the same. -/
structure Mirror (p : Path) (w₁ w₂ : World) : Prop where
  left : w₁.disk.IsSound p
  right : w₂.disk.IsSound p
  same : Disk.SameTree w₁.disk w₂.disk

/-- The action comes to the same in worlds whose disks look the same. -/
def Mirrors {ε α : Type} (p : Path) (a : Action ε α) : Prop :=
  ∀ w₁ w₂, Mirror p w₁ w₂ → (a.run w₁).1 = (a.run w₂).1 ∧ Mirror p (a.run w₁).2 (a.run w₂).2

theorem Mirrors.bind {ε α β : Type} {p : Path} {a : Action ε α} {f : α → Action ε β}
    (ha : Mirrors p a) (hf : ∀ x, Mirrors p (f x)) : Mirrors p (a >>= f) := by
  intro w₁ w₂ h
  have ha := ha w₁ w₂ h
  rw [Action.run_bind, Action.run_bind]
  revert ha
  generalize a.run w₁ = x, a.run w₂ = y
  obtain ⟨x, w₁'⟩ := x
  obtain ⟨y, w₂'⟩ := y
  rintro ⟨rfl, h'⟩
  cases x with
  | error e => exact ⟨rfl, h'⟩
  | ok x => exact hf x w₁' w₂' h'

theorem mirrors_attempt {p q : Path} (hq : q.isAbsolute = p.isAbsolute) (mode : Mode) :
    Mirrors p ((Action.change fun t d => d.makeDirectory t q mode).attempt : Action IoError _) := by
  intro w₁ w₂ h
  have hmake := h.same.makeDirectory (Action.time w₁) (Action.time w₂) q mode
  have hsound : ∀ {d d' : Disk} {t : Time}, d.IsSound p → d.makeDirectory t q mode = .ok d' →
      d'.IsSound p := by
    intro d d' t hd hmake
    obtain ⟨dir, n, made⟩ := Disk.made_of_makeDirectory (hd.of_isAbsolute_eq hq) hmake
    exact (made.isSound (hd.of_isAbsolute_eq hq)).of_isAbsolute_eq hq.symm
  rw [Action.run_attempt, Action.run_attempt, Action.run_change, Action.run_change]
  cases h₁ : w₁.disk.makeDirectory (Action.time w₁) q mode with
  | error e =>
    rw [h₁] at hmake
    cases h₂ : w₂.disk.makeDirectory (Action.time w₂) q mode with
    | ok d₂ => rw [h₂] at hmake; cases hmake
    | error e' => rw [h₂] at hmake; cases hmake; exact ⟨rfl, h.left, h.right, h.same⟩
  | ok d₁ =>
    rw [h₁] at hmake
    cases h₂ : w₂.disk.makeDirectory (Action.time w₂) q mode with
    | error e' => rw [h₂] at hmake; cases hmake
    | ok d₂ =>
      rw [h₂] at hmake
      obtain ⟨hsame⟩ := hmake
      exact ⟨rfl, hsound h.left h₁, hsound h.right h₂, hsame⟩

theorem mirrors_settle (p q : Path) (fault : IoError) :
    Mirrors p (makeDirectoriesAlong.settle q fault) := by
  intro w₁ w₂ h
  rw [run_settle, run_settle, h.same.isDirectory h.left.toIsTree h.right.toIsTree]
  exact ⟨rfl, h⟩

theorem mirrors_makeDirectoriesAlong (p : Path) (mode : Mode) {paths : List Path}
    (hpaths : ∀ q ∈ paths, q.isAbsolute = p.isAbsolute) :
    Mirrors p (makeDirectoriesAlong mode paths) := by
  induction paths with
  | nil => exact fun w₁ w₂ h => ⟨rfl, h⟩
  | cons q above ih =>
    have hq := hpaths q List.mem_cons_self
    rw [makeDirectoriesAlong]
    split
    · exact fun w₁ w₂ h => ⟨rfl, h⟩
    · refine (mirrors_attempt hq mode).bind fun x => ?_
      cases x with
      | ok u => exact fun w₁ w₂ h => ⟨rfl, h⟩
      | error fault =>
        simp only
        split
        · refine (ih fun q hq => hpaths q (List.mem_cons_of_mem _ hq)).bind fun _ =>
            (mirrors_attempt hq mode).bind fun x => ?_
          cases x with
          | ok u => exact fun w₁ w₂ h => ⟨rfl, h⟩
          | error fault => exact mirrors_settle p q fault
        · exact mirrors_settle p q fault

theorem mirrors_makeDirectories (p : Path) (mode : Mode) : Mirrors p (makeDirectories p mode) :=
  mirrors_makeDirectoriesAlong p mode fun _ hq => (Path.of_mem_ancestors hq).1

theorem onlyDisk_makeDirectories {p : Path} {w : World} (h : w.disk.IsSound p) (mode : Mode) :
    OnlyDisk p w ((makeDirectories p mode).run w).2 :=
  onlyDisk_makeDirectoriesAlong ⟨h, rfl, rfl, rfl, Nat.le_refl _, rfl⟩ mode fun _ hq =>
    (Path.of_mem_ancestors hq).1

end Tree

end TwinTrees
