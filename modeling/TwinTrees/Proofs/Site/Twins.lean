import TwinTrees.Proofs.Site.Change

/-!
# Requests on two disks that look the same to a test

Two disks are `Twins` for a site if the test can act on both and they look the same where it looks.
A request along a path that leads inside is answered on both with the same error, or with answers
that look the same, and leaves twins. With both disks the same, this says what a request leaves
alone.

The times of entries count only if `times` says so. So the two disks can belong to runs with other
clocks; then the logs, in which the times are written, do not count either.
-/

namespace TwinTrees

namespace Site

variable {s : Site} {times : Bool} {d₁ d₂ : Disk} {p : Path} {t₁ t₂ : Time} {l dir : Location}
  {n : Name}

/-- The locations where a test looks: inside, and at its log if the times count. -/
def Watched (s : Site) (times : Bool) (l : Location) : Prop :=
  s.Inside l ∨ times = true ∧ l = s.log

instance : DecidablePred (s.Watched times) := fun _ => inferInstanceAs (Decidable (_ ∨ _ ∧ _))

/-- Two disks on which the test can act and which look the same to it. -/
structure Twins (s : Site) (times : Bool) (d₁ d₂ : Disk) : Prop where
  left : s.Standing d₁
  right : s.Standing d₂
  alike : Disk.Alike times (s.Watched times) d₁ d₂

/-- Twins have changed inside and are twins again. -/
structure Moves (s : Site) (times : Bool) (d₁ d₂ d₁' d₂' : Disk) : Prop where
  left : s.Within d₁ d₁'
  right : s.Within d₂ d₂'
  alike : Disk.Alike times (s.Watched times) d₁' d₂'

theorem Moves.twins {d₁' d₂' : Disk} (h : s.Moves times d₁ d₂ d₁' d₂') : s.Twins times d₁' d₂' :=
  ⟨h.left.standing, h.right.standing, h.alike⟩

/-- Entries that look the same, found at the same location inside. -/
structure SameEntry (s : Site) (times : Bool) (d₁ d₂ : Disk) (x y : Location × Entry) : Prop where
  location : x.1 = y.1
  inside : s.Inside x.1
  left : d₁.get? x.1 = some x.2
  right : d₂.get? x.1 = some y.2
  shown : x.2.shown times = y.2.shown times

/-- Files held open at the same location inside. -/
structure SameFile (s : Site) (d₁ d₂ : Disk) (f g : OpenFile) : Prop where
  location : f.location = g.location
  inside : s.Inside f.location
  left : d₁.Holds f
  right : d₂.Holds g

theorem Lands.inside_name {d : Disk} {slash : Bool} (h : s.Lands d (.name dir n slash)) :
    s.Inside (dir ++ [n]) := by
  cases h with
  | name inside => exact inside.append [n]
  | side side => exact inside_side side

/-- Where nothing is, a walk inside has come to a directory inside. -/
theorem Lands.free {d : Disk} {slash : Bool} (h : s.Lands d (.name dir n slash))
    (hs : s.Standing d) (free : d.node? (dir ++ [n]) = none) :
    s.Inside dir ∧ d.IsDir dir ∧ (Step.name n).IsDown := by
  cases h with
  | name inside isDir down => exact ⟨inside, isDir, down⟩
  | side side =>
    have hside := hs.sides side
    rw [Disk.IsDir, Site.side, free] at hside
    cases hside

namespace Twins

theorem moves_refl (tw : s.Twins times d₁ d₂) : s.Moves times d₁ d₂ d₁ d₂ :=
  ⟨tw.left.within_refl, tw.right.within_refl, tw.alike⟩

theorem inside (tw : s.Twins times d₁ d₂) : Disk.Alike false s.Inside d₁ d₂ :=
  tw.alike.withoutTimes.mono fun _ => .inl

theorem get?_cases (tw : s.Twins times d₁ d₂) (hl : s.Inside l) :
    (d₁.get? l = none ∧ d₂.get? l = none) ∨
      ∃ e₁ e₂, d₁.get? l = some e₁ ∧ d₂.get? l = some e₂ ∧ e₁.shown times = e₂.shown times :=
  tw.alike.get?_cases (.inl hl)

theorem isDir (tw : s.Twins times d₁ d₂) (hl : s.Inside l) (h : d₁.IsDir l) : d₂.IsDir l := by
  obtain ⟨h₁, -⟩ | ⟨-, h₂⟩ | ⟨i, j, bytes, h₁, -⟩ | ⟨target, h₁, -⟩ := tw.inside.node?_cases hl
  · rw [Disk.IsDir, h₁] at h; cases h
  · exact h₂
  · rw [Disk.IsDir, h₁] at h; cases h
  · rw [Disk.IsDir, h₁] at h; cases h

theorem target (tw : s.Twins times d₁ d₂) (hp : s.Leads p) (last : LastLink) :
    d₁.target last p = d₂.target last p := (tw.left.target_leads tw.right tw.inside hp).1

theorem lands (tw : s.Twins times d₁ d₂) (hp : s.Leads p) {last : LastLink} {target : Target}
    (h : d₁.target last p = .ok target) : s.Lands d₁ target :=
  (tw.left.target_leads tw.right tw.inside hp).2 h

/-- What a name inside stands for: it is too long, or there is nothing, or there are entries that
look the same. -/
theorem child_cases (tw : s.Twins times d₁ d₂) (hl : s.Inside (dir ++ [n])) :
    (d₁.child? dir n = .error Errno.nameTooLong ∧ d₂.child? dir n = .error Errno.nameTooLong) ∨
    (d₁.child? dir n = .ok none ∧ d₂.child? dir n = .ok none ∧ isTooLong n = false ∧
      d₁.node? (dir ++ [n]) = none ∧ d₂.node? (dir ++ [n]) = none) ∨
    ∃ e₁ e₂, d₁.child? dir n = .ok (some e₁) ∧ d₂.child? dir n = .ok (some e₂) ∧
      s.SameEntry times d₁ d₂ (dir ++ [n], e₁) (dir ++ [n], e₂) := by
  unfold Disk.child?
  cases isTooLong n with
  | true => exact .inl ⟨rfl, rfl⟩
  | false =>
    refine .inr ?_
    obtain ⟨h₁, h₂⟩ | ⟨e₁, e₂, h₁, h₂, he⟩ := tw.get?_cases hl
    · rw [h₁, h₂]
      exact .inl ⟨rfl, rfl, rfl, Disk.node?_eq_none_iff.2 h₁, Disk.node?_eq_none_iff.2 h₂⟩
    · rw [h₁, h₂]
      exact .inr ⟨e₁, e₂, rfl, rfl, rfl, hl, h₁, h₂, he⟩

/-! ## Looking -/

theorem find (tw : s.Twins times d₁ d₂) (hp : s.Leads p) (follow : Bool) :
    Both (s.SameEntry times d₁ d₂) (d₁.find follow p) (d₂.find follow p) := by
  unfold Disk.find
  rw [← tw.target hp]
  cases htarget : d₁.target (if follow || p.endsInSlash then .follow else .keep) p with
  | error e => exact .error e
  | ok target =>
    have hlands := tw.lands hp htarget
    cases target with
    | directory l e =>
      obtain ⟨inside⟩ := hlands
      obtain ⟨h₁, h₂⟩ | ⟨e₁, e₂, h₁, h₂, he⟩ := tw.get?_cases inside
      · simp only [bind, Except.bind, h₁, h₂]
        exact .error _
      · simp only [bind, Except.bind, h₁, h₂]
        exact .ok ⟨rfl, inside, h₁, h₂, he⟩
    | name dir n slash =>
      obtain ⟨h₁, h₂⟩ | ⟨h₁, h₂, -⟩ | ⟨e₁, e₂, h₁, h₂, hsame⟩ :=
        tw.child_cases hlands.inside_name
      · simp only [bind, Except.bind, h₁, h₂]
        exact .error _
      · simp only [bind, Except.bind, h₁, h₂]
        exact .error _
      · simp only [bind, Except.bind, h₁, h₂, Except.mapError, Entry.kind_eq hsame.shown]
        split
        · exact .error _
        · exact .ok hsame

theorem lookAt (tw : s.Twins times d₁ d₂) (hp : s.Leads p) :
    Both (s.SameEntry times d₁ d₂) (d₁.lookAt p) (d₂.lookAt p) := tw.find hp false

theorem isDirectory (tw : s.Twins times d₁ d₂) (hp : s.Leads p) :
    d₁.isDirectory p = d₂.isDirectory p := by
  have h := tw.find hp true
  unfold Disk.isDirectory
  revert h
  generalize d₁.find true p = x, d₂.find true p = y
  rintro (⟨h⟩ | e)
  · simp only [Entry.kind_eq h.shown]
  · rfl

theorem list (tw : s.Twins times d₁ d₂) (hp : s.Leads p) : d₁.list p = d₂.list p := by
  unfold Disk.list
  refine (tw.find hp true).bind (S := (· = ·)) (fun ⟨l, e₁⟩ ⟨l', e₂⟩ h => ?_) |>.eq
  obtain rfl : l = l' := h.location
  have hkind : e₁.node.kind = e₂.node.kind := Entry.kind_eq h.shown
  have hnames : d₁.names l = d₂.names l := tw.alike.names fun n => .inl (h.inside.append [n])
  simp only [hkind, hnames]
  split
  · exact .ok rfl
  · exact .error _

theorem openExisting (tw : s.Twins times d₁ d₂) (hp : s.Leads p) :
    Both (s.SameFile d₁ d₂) (d₁.openExisting p) (d₂.openExisting p) := by
  unfold Disk.openExisting
  refine (tw.find hp true).bind fun ⟨l, e₁⟩ ⟨l', e₂⟩ h => ?_
  obtain rfl : l = l' := h.location
  obtain ⟨h₁, h₂⟩ | ⟨i, j, bytes, h₁, h₂⟩ | ⟨target, h₁, h₂⟩ :=
    Node.shown_eq_cases (a := e₁.node) (b := e₂.node) (Entry.node_shown h.shown)
  · simp only [h₁, h₂]; exact .error _
  · simp only [h₁, h₂]
    exact .ok ⟨rfl, h.inside, ⟨bytes, (Disk.node?_of_get? h.left).trans (congrArg some h₁)⟩,
      ⟨bytes, (Disk.node?_of_get? h.right).trans (congrArg some h₂)⟩⟩
  · simp only [h₁, h₂]; exact .error _

/-! ## Making entries -/

/-- What both disks do where nothing is yet: the entry can be made in the same directory. -/
theorem free (tw : s.Twins times d₁ d₂) {slash : Bool} (hlands : s.Lands d₁ (.name dir n slash))
    (hshort : isTooLong n = false) (h₁ : d₁.node? (dir ++ [n]) = none) :
    s.Inside dir ∧ d₁.IsDir dir ∧ d₂.IsDir dir ∧ IsName n := by
  obtain ⟨inside, isDir, down⟩ := hlands.free tw.left h₁
  exact ⟨inside, isDir, tw.isDir inside isDir, down.1, down.2, hshort⟩

theorem makeDirectory (tw : s.Twins times d₁ d₂) (hp : s.Leads p)
    (ht : times = true → t₁ = t₂) (mode : Mode) :
    Both (s.Moves times d₁ d₂) (d₁.makeDirectory t₁ p mode) (d₂.makeDirectory t₂ p mode) := by
  unfold Disk.makeDirectory
  rw [← tw.target hp]
  cases htarget : d₁.target .keep p with
  | error e => exact .error e
  | ok target =>
    have hlands := tw.lands hp htarget
    cases target with
    | directory l e => exact .error _
    | name dir n slash =>
      obtain ⟨h₁, h₂⟩ | ⟨h₁, h₂, hshort, hn₁, hn₂⟩ | ⟨e₁, e₂, h₁, h₂, -⟩ :=
        tw.child_cases hlands.inside_name
      · simp only [bind, Except.bind, h₁, h₂]
        exact .error _
      · obtain ⟨inside, isDir₁, isDir₂, hname⟩ := tw.free hlands hshort hn₁
        simp only [bind, Except.bind, h₁, h₂, tw.alike.directoryMode (.inl inside)]
        exact .ok ⟨tw.left.addEntry inside isDir₁ hn₁ hname nofun,
          tw.right.addEntry inside isDir₂ hn₂ hname nofun, tw.alike.addEntry ht dir n rfl _⟩
      · simp only [bind, Except.bind, h₁, h₂]
        exact .error _

theorem makeLink (tw : s.Twins times d₁ d₂) (hp : s.Leads p) {old : Path} (hold : s.Leads old)
    (ht : times = true → t₁ = t₂) :
    Both (s.Moves times d₁ d₂) (d₁.makeLink t₁ old p) (d₂.makeLink t₂ old p) := by
  unfold Disk.makeLink
  simp only [bind, Except.bind, throw, throwThe, MonadExceptOf.throw, ← tw.target hp]
  split
  · exact .error _
  · split
    · exact .error _
    · split
      · exact .error _
      · cases htarget : d₁.target .keep p with
        | error e => exact .error e
        | ok target =>
          have hlands := tw.lands hp htarget
          cases target with
          | directory l e => exact .error _
          | name dir n slash =>
            obtain ⟨h₁, h₂⟩ | ⟨h₁, h₂, hshort, hn₁, hn₂⟩ | ⟨e₁, e₂, h₁, h₂, -⟩ :=
              tw.child_cases hlands.inside_name
            · simp only [h₁, h₂]
              exact .error _
            · obtain ⟨inside, isDir₁, isDir₂, hname⟩ := tw.free hlands hshort hn₁
              have hleads : ∀ target, Node.symlink old = .symlink target → s.Leads target := by
                rintro _ ⟨⟩
                exact hold
              simp only [h₁, h₂, Except.mapError]
              split
              · exact .error _
              · exact .ok ⟨tw.left.addEntry inside isDir₁ hn₁ hname hleads,
                  tw.right.addEntry inside isDir₂ hn₂ hname hleads, tw.alike.addEntry ht dir n rfl _⟩
            · simp only [h₁, h₂]
              exact .error _

end Twins

end Site

end TwinTrees
