import TwinTrees.Proofs.Disk.Success
import TwinTrees.Proofs.Site.Twins
import TwinTrees.Tree.Walk

/-!
# Files and whole trees on two disks that look the same

The requests that open files, write to them, and remove entries, on twins; and walks down a tree,
which visit the same on both. A file that is held open on both disks stays in its place until it is
removed, so what is written to one disk later is written to the other as well.
-/

namespace TwinTrees

namespace Disk

variable {d₁ d₂ : Disk} {f g : OpenFile} {t₁ t₂ : Time} {times : Bool} {Q : Location → Prop}
  [DecidablePred Q]

/-- Writing to files that are held open at the same location. -/
theorem Alike.store (h : Alike times Q d₁ d₂) (tree₁ : d₁.IsTree) (tree₂ : d₂.IsTree)
    (ht : times = true → t₁ = t₂) (hloc : f.location = g.location) (hf : d₁.Holds f)
    (hg : d₂.Holds g) {b₁ b₂ : Bytes} (hb : Q f.location → b₁ = b₂) :
    Alike times Q (d₁.store t₁ f b₁) (d₂.store t₂ g b₂) := by
  unfold Disk.store
  rw [← hloc]
  refine h.update fun a b hq ha hb' hab => ?_
  obtain ⟨e₁, _, he₁, hnode₁⟩ := hf.get?
  obtain ⟨e₂, _, he₂, hnode₂⟩ := hg.get?
  obtain rfl := Option.some.inj (he₁.symm.trans (tree₁.get?_of_mem ha))
  obtain rfl := Option.some.inj (he₂.symm.trans (tree₂.get?_of_mem (hloc ▸ hb')))
  simp only [hnode₁, hnode₂, if_pos, hb hq]
  unfold Entry.shown at hab ⊢
  simp only [Entry.mk.injEq] at hab ⊢
  refine ⟨rfl, hab.2.1, hab.2.2.1, ?_⟩
  cases times with
  | false => rfl
  | true => rw [ht rfl]

/-- What files hold that are open at the same location. -/
theorem Alike.load (h : Alike times Q d₁ d₂) (hq : Q f.location) (hloc : f.location = g.location)
    (hf : d₁.Holds f) (hg : d₂.Holds g) : d₁.load f = d₂.load g := by
  obtain ⟨b₁, hf⟩ := hf
  obtain ⟨b₂, hg⟩ := hg
  rw [Holds.load hf, Holds.load hg]
  rw [← hloc] at hg
  obtain ⟨h₁, -⟩ | ⟨h₁, -⟩ | ⟨i, j, bytes, h₁, h₂⟩ | ⟨target, h₁, -⟩ := h.node?_cases hq
  · rw [hf] at h₁; cases h₁
  · rw [IsDir, hf] at h₁; cases h₁
  · rw [hf] at h₁; rw [hg] at h₂; cases h₁; cases h₂; rfl
  · rw [hf] at h₁; cases h₁

end Disk

namespace Site

variable {s : Site} {times : Bool} {d₁ d₂ : Disk} {p : Path} {t₁ t₂ : Time} {l dir : Location}
  {n : Name} {f g : OpenFile}

/-- What twins are after a file was opened on both: it is held at the same location, and files held
before are held still. -/
structure Opened (s : Site) (times : Bool) (d₁ d₂ : Disk) (x y : OpenFile × Disk) : Prop where
  file : s.SameFile x.2 y.2 x.1 y.1
  moves : s.Moves times d₁ d₂ x.2 y.2
  left : ∀ f, d₁.Holds f → x.2.Holds f
  right : ∀ f, d₂.Holds f → y.2.Holds f

namespace Twins

/-! ## Opening and writing -/

theorem addFile (tw : s.Twins times d₁ d₂) {slash : Bool}
    (hlands : s.Lands d₁ (.name dir n slash)) (hshort : isTooLong n = false)
    (h₁ : d₁.node? (dir ++ [n]) = none) (h₂ : d₂.node? (dir ++ [n]) = none)
    (ht : times = true → t₁ = t₂) (mode : Mode) :
    s.Opened times d₁ d₂ (⟨dir ++ [n], d₁.nextId⟩, d₁.addFile t₁ dir n mode)
      (⟨dir ++ [n], d₂.nextId⟩, d₂.addFile t₂ dir n mode) := by
  obtain ⟨inside, isDir₁, isDir₂, hname⟩ := tw.free hlands hshort h₁
  exact {
    file := ⟨rfl, inside.append [n], d₁.holds_addFile t₁ dir n mode, d₂.holds_addFile t₂ dir n mode⟩
    moves := ⟨tw.left.addFile inside isDir₁ h₁ hname, tw.right.addFile inside isDir₂ h₂ hname,
      tw.alike.addFile ht dir n mode⟩
    left := fun _ hf => hf.addFile h₁
    right := fun _ hf => hf.addFile h₂ }

theorem createNew (tw : s.Twins times d₁ d₂) (hp : s.Leads p) (ht : times = true → t₁ = t₂)
    (mode : Mode) :
    Both (s.Opened times d₁ d₂) (d₁.createNew t₁ p mode) (d₂.createNew t₂ p mode) := by
  unfold Disk.createNew
  simp only [bind, Except.bind, throw, throwThe, MonadExceptOf.throw, ← tw.target hp]
  cases htarget : d₁.target .keep p with
  | error e => exact .error e
  | ok target =>
    have hlands := tw.lands hp htarget
    cases target with
    | directory l e => exact .error _
    | name dir n slash =>
      simp only
      split
      · exact .error _
      · obtain ⟨h₁, h₂⟩ | ⟨h₁, h₂, hshort, hn₁, hn₂⟩ | ⟨e₁, e₂, h₁, h₂, -⟩ :=
          tw.child_cases hlands.inside_name
        · simp only [h₁, h₂]
          exact .error _
        · simp only [h₁, h₂]
          exact .ok (tw.addFile hlands hshort hn₁ hn₂ ht mode)
        · simp only [h₁, h₂]
          exact .error _

theorem store (tw : s.Twins times d₁ d₂) (same : s.SameFile d₁ d₂ f g)
    (ht : times = true → t₁ = t₂) (bytes : Bytes) :
    s.Moves times d₁ d₂ (d₁.store t₁ f bytes) (d₂.store t₂ g bytes) where
  left := tw.left.store same.inside bytes
  right := tw.right.store (same.location ▸ same.inside) bytes
  alike := tw.alike.store tw.left.tree tw.right.tree ht same.location same.left same.right
    fun _ => rfl

theorem load (tw : s.Twins times d₁ d₂) (same : s.SameFile d₁ d₂ f g) : d₁.load f = d₂.load g :=
  tw.alike.load (.inl same.inside) same.location same.left same.right

theorem append (tw : s.Twins times d₁ d₂) (same : s.SameFile d₁ d₂ f g)
    (ht : times = true → t₁ = t₂) (bytes : Bytes) :
    s.Moves times d₁ d₂ (d₁.append t₁ f bytes) (d₂.append t₂ g bytes) := by
  unfold Disk.append
  rw [← tw.load same]
  exact tw.store same ht _

theorem openOrCreate (tw : s.Twins times d₁ d₂) (hp : s.Leads p) (ht : times = true → t₁ = t₂)
    (mode : Mode) (truncate : Bool) :
    Both (s.Opened times d₁ d₂) (d₁.openOrCreate t₁ p mode truncate)
      (d₂.openOrCreate t₂ p mode truncate) := by
  unfold Disk.openOrCreate
  simp only [bind, Except.bind, throw, throwThe, MonadExceptOf.throw, ← tw.target hp]
  cases htarget : d₁.target .followBare p with
  | error e => exact .error e
  | ok target =>
    have hlands := tw.lands hp htarget
    cases target with
    | directory l e => exact .error _
    | name dir n slash =>
      simp only
      split
      · exact .error _
      · obtain ⟨h₁, h₂⟩ | ⟨h₁, h₂, hshort, hn₁, hn₂⟩ | ⟨e₁, e₂, h₁, h₂, he⟩ :=
          tw.child_cases hlands.inside_name
        · simp only [h₁, h₂]
          exact .error _
        · simp only [h₁, h₂]
          exact .ok (tw.addFile hlands hshort hn₁ hn₂ ht mode)
        · simp only [h₁, h₂, Except.mapError]
          obtain ⟨hn₁, hn₂⟩ | ⟨i, j, bytes, hn₁, hn₂⟩ | ⟨target, hn₁, hn₂⟩ :=
            Node.shown_eq_cases (a := e₁.node) (b := e₂.node) (Entry.node_shown he.shown)
          · simp only [hn₁, hn₂]
            exact .error _
          · simp only [hn₁, hn₂]
            have same : s.SameFile d₁ d₂ ⟨dir ++ [n], i⟩ ⟨dir ++ [n], j⟩ :=
              ⟨rfl, he.inside, ⟨bytes, (Disk.node?_of_get? he.left).trans (congrArg some hn₁)⟩,
                ⟨bytes, (Disk.node?_of_get? he.right).trans (congrArg some hn₂)⟩⟩
            refine .ok ?_
            cases truncate with
            | true =>
              exact {
                file := { same with left := same.left.store _, right := same.right.store _ }
                moves := tw.store same ht #[]
                left := fun _ hf => hf.store _
                right := fun _ hf => hf.store _ }
            | false =>
              exact {
                file := same
                moves := tw.moves_refl
                left := fun _ hf => hf
                right := fun _ hf => hf }
          · simp only [hn₁, hn₂]
            exact .error _

theorem setTimesAt (tw : s.Twins times d₁ d₂) (hl : s.Inside l) (ht : times = true → t₁ = t₂) :
    s.Moves times d₁ d₂ (d₁.setTimesAt l t₁) (d₂.setTimesAt l t₂) :=
  ⟨tw.left.setTimesAt hl t₁, tw.right.setTimesAt hl t₂, tw.alike.setTimesAt ht l⟩

theorem setTimes (tw : s.Twins times d₁ d₂) (hp : s.Leads p) (ht : times = true → t₁ = t₂) :
    Both (s.Moves times d₁ d₂) (d₁.setTimes p t₁) (d₂.setTimes p t₂) := by
  unfold Disk.setTimes
  refine (tw.find hp true).bind fun ⟨l, e₁⟩ ⟨l', e₂⟩ h => ?_
  obtain rfl : l = l' := h.location
  exact .ok (tw.setTimesAt h.inside ht)

/-! ## Removing -/

theorem removeEntry (tw : s.Twins times d₁ d₂) (inside : s.Inside dir)
    (ht : times = true → t₁ = t₂) (h₁ : ∀ m, d₁.node? (dir ++ [n] ++ [m]) = none)
    (h₂ : ∀ m, d₂.node? (dir ++ [n] ++ [m]) = none) :
    s.Moves times d₁ d₂ (d₁.removeEntry t₁ dir n) (d₂.removeEntry t₂ dir n) :=
  ⟨tw.left.removeEntry inside h₁, tw.right.removeEntry inside h₂, tw.alike.removeEntry ht dir n⟩

theorem removeFile (tw : s.Twins times d₁ d₂) (hp : s.Enters p) (ht : times = true → t₁ = t₂) :
    Both (s.Moves times d₁ d₂) (d₁.removeFile t₁ p) (d₂.removeFile t₂ p) := by
  unfold Disk.removeFile
  simp only [bind, Except.bind, throw, throwThe, MonadExceptOf.throw, ← tw.target hp.leads]
  cases htarget : d₁.target .keep p with
  | error e => exact .error e
  | ok target =>
    cases target with
    | directory l e => exact .error _
    | name dir n slash =>
      have inside := tw.left.target_enters hp htarget
      obtain ⟨h₁, h₂⟩ | ⟨h₁, h₂, -⟩ | ⟨e₁, e₂, h₁, h₂, he⟩ := tw.child_cases (inside.append [n])
      · simp only [h₁, h₂]
        exact .error _
      · simp only [h₁, h₂]
        exact .error _
      · simp only [h₁, h₂, Except.mapError, ← Entry.kind_eq he.shown]
        split
        · exact .error _
        · next hkind =>
          split
          · exact .error _
          · have hnot₁ : ¬ d₁.IsDir (dir ++ [n]) := by
              rw [Disk.IsDir, Disk.node?_of_get? he.left, Option.some.injEq,
                ← Disk.kind_eq_directory_iff]
              exact hkind
            have hnot₂ : ¬ d₂.IsDir (dir ++ [n]) := by
              rw [Disk.IsDir, Disk.node?_of_get? he.right, Option.some.injEq,
                ← Disk.kind_eq_directory_iff, ← Entry.kind_eq he.shown]
              exact hkind
            exact .ok (tw.removeEntry inside ht (tw.left.node?_below hnot₁)
              (tw.right.node?_below hnot₂))

theorem removeDirectory (tw : s.Twins times d₁ d₂) (hp : s.Enters p)
    (ht : times = true → t₁ = t₂) :
    Both (s.Moves times d₁ d₂) (d₁.removeDirectory t₁ p) (d₂.removeDirectory t₂ p) := by
  unfold Disk.removeDirectory
  simp only [bind, Except.bind, throw, throwThe, MonadExceptOf.throw, ← tw.target hp.leads]
  cases htarget : d₁.target .keep p with
  | error e => exact .error e
  | ok target =>
    cases target with
    | directory l e => cases e <;> exact .error _
    | name dir n slash =>
      have inside := tw.left.target_enters hp htarget
      obtain ⟨h₁, h₂⟩ | ⟨h₁, h₂, -⟩ | ⟨e₁, e₂, h₁, h₂, he⟩ := tw.child_cases (inside.append [n])
      · simp only [h₁, h₂]
        exact .error _
      · simp only [h₁, h₂]
        exact .error _
      · have hnames : d₁.names (dir ++ [n]) = d₂.names (dir ++ [n]) :=
          tw.alike.names fun m => .inl (he.inside.append [m])
        simp only [h₁, h₂, Except.mapError, ← Entry.kind_eq he.shown, ← hnames]
        split
        · exact .error _
        · split
          · next hempty =>
            have hnil := List.isEmpty_iff.1 hempty
            exact .ok (tw.removeEntry inside ht (Disk.names_eq_nil_iff.1 hnil)
              (Disk.names_eq_nil_iff.1 (hnames ▸ hnil)))
          · exact .error _

end Twins

/-! ## Walking down -/

theorem Leads.join (hp : s.Leads p) {q : Path} (hq : q.isAbsolute = false)
    (hdown : Descends q.steps) : s.Leads (p.join q) := by
  obtain ⟨side, more, hmore, hsteps⟩ := hp.steps
  refine ⟨(Path.isAbsolute_join hq).trans hp.absolute, side, more ++ q.steps, hmore.append hdown, ?_⟩
  rw [Path.steps_join hq, hsteps, List.append_assoc]
  rfl

theorem Leads.enters_join (hp : s.Leads p) {q : Path} (hq : q.isAbsolute = false)
    (hdown : Descends q.steps) (hne : q.steps ≠ []) : s.Enters (p.join q) := by
  obtain ⟨side, more, hmore, hsteps⟩ := hp.steps
  refine ⟨(Path.isAbsolute_join hq).trans hp.absolute, side, more ++ q.steps, hmore.append hdown,
    fun hnil => hne (List.append_eq_nil_iff.1 hnil).2, ?_⟩
  rw [Path.steps_join hq, hsteps, List.append_assoc]
  rfl

theorem Leads.inside (hp : s.Leads p) (hn : IsName n) : s.Leads (Tree.inside p n) := by
  refine hp.join (Path.isAbsolute_name hn.noSlash) ?_
  rw [Path.steps_name hn]
  intro st hst
  obtain rfl := List.mem_singleton.1 hst
  exact hn.isDown

theorem Twins.walkContents (tw : s.Twins times d₁ d₂) (depth : Nat) (hp : s.Leads p) :
    d₁.walkContents depth p = d₂.walkContents depth p := by
  induction depth generalizing p with
  | zero => rfl
  | succ depth ih =>
    unfold Disk.walkContents
    rw [← tw.list hp]
    cases hlist : d₁.list p with
    | error e => rfl
    | ok names =>
      simp only
      refine List.flatMap_congr fun x hx => ?_
      have hname := tw.left.tree.isName_of_list hlist hx
      simp only [ih (hp.inside hname)]

theorem Twins.walkDown (tw : s.Twins times d₁ d₂) (hp : s.Leads p) :
    d₁.walkDown p = d₂.walkDown p := by
  have hlook := tw.lookAt hp
  have hfind := tw.find hp true
  unfold Disk.walkDown
  revert hlook hfind
  generalize d₁.lookAt p = x₁, d₂.lookAt p = x₂, d₁.find true p = y₁, d₂.find true p = y₂
  rintro (⟨hlook⟩ | e) hfind
  · simp only [Entry.kind_eq hlook.shown, tw.walkContents _ hp]
    obtain ⟨hfind⟩ | e := hfind
    · simp only [Entry.kind_eq hfind.shown]
    · rfl
  · rfl

end Site

end TwinTrees
