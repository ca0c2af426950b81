import TwinTrees.Proofs.Disk.Tree

/-!
# Parts of a disk

`Disk.part Q d` is what there is of a disk at the locations that satisfy `Q`. Changes of a disk are
changes of its parts: a change at a location outside `Q` leaves the part as it is, and one inside
does to the part what it does to the disk.

Two disks are `Alike` on `Q` if their parts look the same. The identities of files do not show, and
the times of entries show only if `times` says so. The order in which a directory is listed does, so
that two walks through parts that are alike go the same way.
-/

namespace TwinTrees

/-- The node as it shows: without the identity of a file. -/
def Node.shown : Node → Node
  | .file _ bytes => .file 0 bytes
  | node => node

/-- The entry as it shows, with its times or without them. -/
def Entry.shown (times : Bool) (e : Entry) : Entry where
  node := e.node.shown
  mode := e.mode
  accessed := if times then e.accessed else ⟨0, 0⟩
  modified := if times then e.modified else ⟨0, 0⟩

theorem Node.shown_eq_directory_iff {node : Node} : node.shown = .directory ↔ node = .directory := by
  cases node <;> simp [Node.shown]

theorem Node.kind_shown (node : Node) : node.shown.kind = node.kind := by cases node <;> rfl

theorem Node.kind_eq_of_shown {a b : Node} (h : a.shown = b.shown) : a.kind = b.kind := by
  rw [← a.kind_shown, ← b.kind_shown, h]

/-- Nodes that show the same are both directories, files with the same bytes, or links with the same
path. -/
theorem Node.shown_eq_cases {a b : Node} (h : a.shown = b.shown) :
    (a = .directory ∧ b = .directory) ∨ (∃ i j bytes, a = .file i bytes ∧ b = .file j bytes) ∨
      ∃ target, a = .symlink target ∧ b = .symlink target := by
  cases a with
  | directory => exact .inl ⟨rfl, shown_eq_directory_iff.1 h.symm⟩
  | file i bytes =>
    cases b with
    | file j bytes' => cases h; exact .inr (.inl ⟨i, j, bytes, rfl, rfl⟩)
    | directory => cases h
    | symlink target => cases h
  | symlink target =>
    cases b with
    | symlink target' => cases h; exact .inr (.inr ⟨target, rfl, rfl⟩)
    | directory => cases h
    | file j bytes => cases h

namespace Entry

variable {times : Bool} {a b : Entry}

theorem node_shown (h : a.shown times = b.shown times) : a.node.shown = b.node.shown :=
  congrArg Entry.node h

theorem mode_shown (h : a.shown times = b.shown times) : a.mode = b.mode :=
  (Entry.mk.inj h).2.1

theorem kind_eq (h : a.shown times = b.shown times) : a.node.kind = b.node.kind :=
  Node.kind_eq_of_shown (node_shown h)

end Entry

namespace Disk

variable {d d₁ d₂ : Disk} {l m dir : Location} {n : Name} {times : Bool}
  {Q Q' : Location → Prop} [DecidablePred Q] [DecidablePred Q']

/-- What there is of a disk at the locations that satisfy `Q`. -/
def part (Q : Location → Prop) [DecidablePred Q] (d : Disk) : Disk where
  entries := d.entries.filter fun x => Q x.1
  nextId := 0
  workingDirectory := d.workingDirectory

/-- The disk with its entries as they show. -/
def shown (times : Bool) (d : Disk) : Disk :=
  { d with entries := d.entries.map fun x => (x.1, x.2.shown times) }

/-! ## Changes of parts -/

theorem part_update (d : Disk) (l : Location) (f : Entry → Entry) :
    (d.update l f).part Q = (d.part Q).update l f := by
  simp only [part, update, Disk.mk.injEq, and_self, and_true]
  induction d.entries with
  | nil => rfl
  | cons x xs ih =>
    have hkey : (if x.1 = l then (l, f x.2) else x).1 = x.1 := by
      split
      · next h => exact h.symm
      · rfl
    by_cases hx : Q x.1
    · simp only [List.map_cons, List.filter_cons, hkey, hx, decide_true, if_true]
      rw [ih]
    · simp only [List.map_cons, List.filter_cons, hkey, hx, decide_false]
      exact ih

theorem part_erase (d : Disk) (l : Location) : (d.erase l).part Q = (d.part Q).erase l := by
  simp only [part, erase, Disk.mk.injEq, and_self, and_true]
  exact List.filter_comm _ _ _

theorem part_eraseBelow (d : Disk) (l : Location) :
    (d.eraseBelow l).part Q = (d.part Q).eraseBelow l := by
  simp only [part, eraseBelow, Disk.mk.injEq, and_self, and_true]
  exact List.filter_comm _ _ _

theorem part_put (h : Q l) (e : Entry) : (d.put l e).part Q = (d.part Q).put l e := by
  have := congrArg Disk.entries (part_erase (Q := Q) d l)
  simp only [part, put, Disk.mk.injEq, and_self, and_true]
  rw [List.filter_cons, if_pos (by simpa using h)]
  exact congrArg _ this

theorem part_update_of_not (h : ¬ Q l) (f : Entry → Entry) :
    (d.update l f).part Q = d.part Q := by
  rw [part_update]
  simp only [part, update, Disk.mk.injEq, and_self, and_true]
  refine (List.map_congr_left fun x hx => ?_).trans (List.map_id _)
  have hq : Q x.1 := by simpa using (List.mem_filter.1 hx).2
  have hne : x.1 ≠ l := fun heq => h (heq ▸ hq)
  rw [if_neg hne, id]

theorem part_erase_of_not (h : ¬ Q l) : (d.erase l).part Q = d.part Q := by
  rw [part_erase]
  simp only [part, erase, Disk.mk.injEq, and_self, and_true]
  rw [List.filter_eq_self]
  intro x hx
  have hq : Q x.1 := by simpa using (List.mem_filter.1 hx).2
  have hne : x.1 ≠ l := fun heq => h (heq ▸ hq)
  simpa using hne

theorem part_put_of_not (h : ¬ Q l) (e : Entry) : (d.put l e).part Q = d.part Q := by
  have := congrArg Disk.entries (part_erase_of_not (d := d) h)
  simp only [part, put, Disk.mk.injEq, and_self, and_true]
  rw [List.filter_cons, if_neg (by simpa using h)]
  exact this

theorem part_eraseBelow_of_not (h : ∀ m, Q m → l <+: m → m = l) :
    (d.eraseBelow l).part Q = d.part Q := by
  rw [part_eraseBelow]
  simp only [part, eraseBelow, Disk.mk.injEq, and_self, and_true]
  rw [List.filter_eq_self]
  intro x hx
  have hq : Q x.1 := by simpa using (List.mem_filter.1 hx).2
  by_cases hp : l <+: x.1
  · simp [h _ hq hp]
  · have : l.isPrefixOf x.1 = false := by
      rwa [Bool.eq_false_iff, ne_eq, List.isPrefixOf_iff_prefix]
    simp [this]

theorem get?_part (d : Disk) (l : Location) :
    (d.part Q).get? l = if Q l then d.get? l else none := by
  unfold get? part
  rw [List.find?_filter]
  split
  · next h =>
    congr 2
    funext x
    by_cases hx : x.1 = l
    · simp [hx, h]
    · simp [hx]
  · next h =>
    rw [Option.map_eq_none_iff, List.find?_eq_none]
    rintro x - hx
    simp only [decide_eq_true_eq, beq_iff_eq] at hx
    exact h (hx.2 ▸ hx.1)

theorem node?_part (d : Disk) (l : Location) :
    (d.part Q).node? l = if Q l then d.node? l else none := by
  rw [node?, get?_part]
  split <;> rfl

theorem of_node?_part {node : Node} (h : (d.part Q).node? l = some node) :
    Q l ∧ d.node? l = some node := by
  rw [node?_part] at h
  split at h
  · next hl => exact ⟨hl, h⟩
  · cases h

theorem names_part (h : ∀ n, Q (l ++ [n])) : (d.part Q).names l = d.names l := by
  unfold names part
  rw [List.filterMap_filter]
  congr 1
  funext x
  split
  · rfl
  · next hx =>
    cases hname : nameIn? l x.1 with
    | none => rfl
    | some name =>
      rw [nameIn?_eq_some_iff] at hname
      rw [hname] at hx
      exact absurd (by simpa using h name) hx

/-- A part of a part. -/
theorem part_part (h : ∀ l, Q l → Q' l) : (d.part Q').part Q = d.part Q := by
  simp only [part, Disk.mk.injEq, and_self, and_true, List.filter_filter]
  congr 1
  funext x
  by_cases hx : Q x.1
  · simp [hx, h _ hx]
  · simp [hx]

/-! ## What shows of a disk -/

theorem get?_shown (d : Disk) (l : Location) :
    (d.shown times).get? l = (d.get? l).map (Entry.shown times) := by
  unfold get? shown
  rw [List.find?_map, Option.map_map, Option.map_map]
  rfl

theorem names_shown (d : Disk) (l : Location) : (d.shown times).names l = d.names l := by
  unfold names shown
  rw [List.filterMap_map]
  congr 1
  funext x
  simp [Entry.shown, Node.kind_shown]

theorem shown_put (d : Disk) (l : Location) (e : Entry) :
    (d.put l e).shown times = (d.shown times).put l (e.shown times) := by
  simp only [shown, put, erase, List.map_cons, List.filter_map]
  rfl

theorem shown_erase (d : Disk) (l : Location) :
    (d.erase l).shown times = (d.shown times).erase l := by
  simp only [shown, erase, List.filter_map]
  rfl

/-- Two updates of disks that show the same, if they change the one entry so that it shows the
same. -/
theorem shown_update_congr {f₁ f₂ : Entry → Entry} (h : d₁.shown times = d₂.shown times)
    (hf : ∀ a b, (l, a) ∈ d₁.entries → (l, b) ∈ d₂.entries → a.shown times = b.shown times →
      (f₁ a).shown times = (f₂ b).shown times) :
    (d₁.update l f₁).shown times = (d₂.update l f₂).shown times := by
  obtain ⟨xs, i, wd⟩ := d₁
  obtain ⟨ys, j, wd'⟩ := d₂
  simp only [shown, update, Disk.mk.injEq, List.map_map] at h hf ⊢
  refine ⟨?_, h.2⟩
  have h := h.1
  clear * - h hf
  induction xs generalizing ys with
  | nil =>
    cases ys with
    | nil => rfl
    | cons y ys => cases h
  | cons x xs ih =>
    cases ys with
    | nil => cases h
    | cons y ys =>
      rw [List.map_cons, List.map_cons, List.cons.injEq, Prod.mk.injEq] at h
      obtain ⟨⟨hkey, hshown⟩, hrest⟩ := h
      rw [List.map_cons, List.map_cons, ih ys (fun a b ha hb => hf a b (List.mem_cons_of_mem x ha)
        (List.mem_cons_of_mem y hb)) hrest]
      congr 1
      simp only [Function.comp_apply, ← hkey]
      split
      · next hl =>
        subst hl
        exact congrArg _ (hf x.2 y.2 List.mem_cons_self
          (by rw [hkey]; exact List.mem_cons_self) hshown)
      · rw [hkey, hshown]

/-! ## Disks with parts that are alike -/

/-- The parts of two disks at the locations that satisfy `Q` look the same. -/
def Alike (times : Bool) (Q : Location → Prop) [DecidablePred Q] (d₁ d₂ : Disk) : Prop :=
  (d₁.part Q).shown times = (d₂.part Q).shown times

namespace Alike

variable {e₁ e₂ : Entry} {t₁ t₂ : Time}

theorem refl (d : Disk) : Alike times Q d d := rfl

theorem symm (h : Alike times Q d₁ d₂) : Alike times Q d₂ d₁ := Eq.symm h

theorem trans {d₃ : Disk} (h : Alike times Q d₁ d₂) (h' : Alike times Q d₂ d₃) :
    Alike times Q d₁ d₃ := Eq.trans h h'

theorem get? (h : Alike times Q d₁ d₂) (hl : Q l) :
    (d₁.get? l).map (Entry.shown times) = (d₂.get? l).map (Entry.shown times) := by
  have := congrArg (fun d => d.get? l) h
  simpa only [get?_shown, get?_part, if_pos hl] using this

/-- Either there is nothing on either disk, or there are entries that show the same. -/
theorem get?_cases (h : Alike times Q d₁ d₂) (hl : Q l) :
    (d₁.get? l = none ∧ d₂.get? l = none) ∨
      ∃ e₁ e₂, d₁.get? l = some e₁ ∧ d₂.get? l = some e₂ ∧ e₁.shown times = e₂.shown times := by
  have := h.get? hl
  cases h₁ : d₁.get? l <;> cases h₂ : d₂.get? l <;> rw [h₁, h₂] at this
  · exact .inl ⟨rfl, rfl⟩
  · cases this
  · cases this
  · exact .inr ⟨_, _, rfl, rfl, Option.some.inj this⟩

/-- Either there is nothing on either disk, or there is the same but for the identities of files. -/
theorem node?_cases (h : Alike times Q d₁ d₂) (hl : Q l) :
    (d₁.node? l = none ∧ d₂.node? l = none) ∨ (d₁.IsDir l ∧ d₂.IsDir l) ∨
      (∃ i j bytes, d₁.node? l = some (.file i bytes) ∧ d₂.node? l = some (.file j bytes)) ∨
      ∃ target, d₁.node? l = some (.symlink target) ∧ d₂.node? l = some (.symlink target) := by
  obtain ⟨h₁, h₂⟩ | ⟨e₁, e₂, h₁, h₂, he⟩ := h.get?_cases hl
  · exact .inl ⟨node?_eq_none_iff.2 h₁, node?_eq_none_iff.2 h₂⟩
  · rw [IsDir, IsDir, node?_of_get? h₁, node?_of_get? h₂]
    obtain ⟨ha, hb⟩ | ⟨i, j, bytes, ha, hb⟩ | ⟨target, ha, hb⟩ :=
      Node.shown_eq_cases (Entry.node_shown he)
    · exact .inr (.inl ⟨congrArg some ha, congrArg some hb⟩)
    · exact .inr (.inr (.inl ⟨i, j, bytes, congrArg some ha, congrArg some hb⟩))
    · exact .inr (.inr (.inr ⟨target, congrArg some ha, congrArg some hb⟩))

theorem isDir (h : Alike times Q d₁ d₂) (hl : Q l) (isDir : d₁.IsDir l) : d₂.IsDir l := by
  rw [IsDir] at isDir ⊢
  obtain ⟨h₁, -⟩ | ⟨-, h₂⟩ | ⟨i, j, bytes, h₁, -⟩ | ⟨target, h₁, -⟩ := h.node?_cases hl
  · rw [h₁] at isDir; cases isDir
  · exact h₂
  · rw [h₁] at isDir; cases isDir
  · rw [h₁] at isDir; cases isDir

theorem symlink (h : Alike times Q d₁ d₂) (hl : Q l) {target : Path}
    (isLink : d₁.node? l = some (.symlink target)) : d₂.node? l = some (.symlink target) := by
  obtain ⟨h₁, -⟩ | ⟨h₁, -⟩ | ⟨i, j, bytes, h₁, -⟩ | ⟨target, h₁, h₂⟩ := h.node?_cases hl
  · rw [h₁] at isLink; cases isLink
  · rw [IsDir, isLink] at h₁; cases h₁
  · rw [h₁] at isLink; cases isLink
  · rw [h₁] at isLink; cases isLink; exact h₂

theorem directoryMode (h : Alike times Q d₁ d₂) (hl : Q l) (mode : Mode) :
    d₁.directoryMode l mode = d₂.directoryMode l mode := by
  unfold Disk.directoryMode
  obtain ⟨h₁, h₂⟩ | ⟨e₁, e₂, h₁, h₂, he⟩ := h.get?_cases hl
  · rw [h₁, h₂]
  · rw [h₁, h₂, Option.map_some, Option.map_some, Entry.mode_shown he]

theorem workingDirectory (h : Alike times Q d₁ d₂) :
    d₁.workingDirectory = d₂.workingDirectory := (Disk.mk.inj h).2.2

theorem names (h : Alike times Q d₁ d₂) (hl : ∀ n, Q (l ++ [n])) : d₁.names l = d₂.names l := by
  have := congrArg (fun d => d.names l) h
  simpa only [names_shown, names_part hl] using this

theorem mono (h : Alike times Q' d₁ d₂) (hq : ∀ l, Q l → Q' l) : Alike times Q d₁ d₂ := by
  have hpart : ∀ d : Disk, (d.part Q).shown times = ((d.part Q').shown times).part Q := by
    intro d
    rw [← part_part hq]
    simp only [part, shown, List.filter_map]
    rfl
  rw [Alike, hpart, hpart, show (d₁.part Q').shown times = _ from h]

/-- Parts that look the same with their times look the same without them. -/
theorem withoutTimes (h : Alike times Q d₁ d₂) : Alike false Q d₁ d₂ := by
  have hshown : ∀ d : Disk, d.shown false = (d.shown times).shown false := by
    intro d
    simp only [shown, List.map_map, Disk.mk.injEq, and_self, and_true]
    refine List.map_congr_left fun x _ => ?_
    have : (x.2.shown times).shown false = x.2.shown false := by
      unfold Entry.shown
      cases x.2.node <;> rfl
    rw [Function.comp_apply, this]
  rw [Alike, hshown, hshown (d₂.part Q), show (d₁.part Q).shown times = _ from h]

/-- Parts with nothing in them look the same. -/
theorem of_none (h₁ : ∀ l, Q l → d₁.node? l = none) (h₂ : ∀ l, Q l → d₂.node? l = none)
    (working : d₁.workingDirectory = d₂.workingDirectory) : Alike times Q d₁ d₂ := by
  have hpart : ∀ {d : Disk}, (∀ l, Q l → d.node? l = none) →
      d.part Q = ⟨[], 0, d.workingDirectory⟩ := by
    intro d h
    have hentries : d.entries.filter (fun x => decide (Q x.1)) = [] := by
      rw [List.filter_eq_nil_iff]
      intro x hx hq
      exact get?_ne_none_of_mem hx (node?_eq_none_iff.1 (h _ (of_decide_eq_true hq)))
    rw [part, hentries]
  rw [Alike, hpart h₁, hpart h₂, working]

theorem erase (h : Alike times Q d₁ d₂) (l : Location) :
    Alike times Q (d₁.erase l) (d₂.erase l) := by
  rw [Alike, part_erase, part_erase, shown_erase, shown_erase, show (d₁.part Q).shown _ = _ from h]

theorem put (h : Alike times Q d₁ d₂) (l : Location) (he : e₁.shown times = e₂.shown times) :
    Alike times Q (d₁.put l e₁) (d₂.put l e₂) := by
  by_cases hl : Q l
  · rw [Alike, part_put hl, part_put hl, shown_put, shown_put, he,
      show (d₁.part Q).shown _ = _ from h]
  · rw [Alike, part_put_of_not hl, part_put_of_not hl]
    exact h

theorem update (h : Alike times Q d₁ d₂) {f₁ f₂ : Entry → Entry}
    (hf : ∀ a b, Q l → (l, a) ∈ d₁.entries → (l, b) ∈ d₂.entries →
      a.shown times = b.shown times → (f₁ a).shown times = (f₂ b).shown times) :
    Alike times Q (d₁.update l f₁) (d₂.update l f₂) := by
  by_cases hl : Q l
  · rw [Alike, part_update, part_update]
    exact shown_update_congr h fun a b ha hb =>
      hf a b hl (List.mem_filter.1 ha).1 (List.mem_filter.1 hb).1
  · rw [Alike, part_update_of_not hl, part_update_of_not hl]
    exact h

theorem withNextId (h : Alike times Q d₁ d₂) (i j : Nat) :
    Alike times Q { d₁ with nextId := i } { d₂ with nextId := j } := h

theorem touch (h : Alike times Q d₁ d₂) (ht : times = true → t₁ = t₂) (l : Location) :
    Alike times Q (d₁.touch l t₁) (d₂.touch l t₂) := by
  refine h.update fun a b _ _ _ hab => ?_
  cases times with
  | false => exact hab
  | true =>
    rw [ht rfl]
    unfold Entry.shown at hab ⊢
    simp only [Entry.mk.injEq] at hab ⊢
    exact ⟨hab.1, hab.2.1, hab.2.2.1, trivial⟩

/-- A disk with a directory modified looks as before without the times. -/
theorem touched (d : Disk) (l : Location) (t : Time) : Alike false Q d (d.touch l t) := by
  unfold Alike Disk.touch
  rw [part_update]
  unfold shown Disk.update
  simp only [List.map_map, Disk.mk.injEq, and_true]
  refine List.map_congr_left fun x _ => ?_
  simp only [Function.comp_apply]
  split
  · next hx => rw [hx]; rfl
  · rfl

theorem setTimesAt (h : Alike times Q d₁ d₂) (ht : times = true → t₁ = t₂) (l : Location) :
    Alike times Q (d₁.setTimesAt l t₁) (d₂.setTimesAt l t₂) := by
  refine h.update fun a b _ _ _ hab => ?_
  cases times with
  | false => exact hab
  | true =>
    rw [ht rfl]
    unfold Entry.shown at hab ⊢
    simp only [Entry.mk.injEq] at hab ⊢
    exact ⟨hab.1, hab.2.1, trivial, trivial⟩

theorem addEntry (h : Alike times Q d₁ d₂) (ht : times = true → t₁ = t₂) (dir : Location)
    (n : Name) {node₁ node₂ : Node} (hnode : node₁.shown = node₂.shown) (mode : Mode) :
    Alike times Q (d₁.addEntry t₁ dir n node₁ mode) (d₂.addEntry t₂ dir n node₂ mode) := by
  refine (h.put _ ?_).touch ht dir
  unfold Entry.shown
  simp only [hnode, Entry.mk.injEq, true_and]
  cases times with
  | false => exact ⟨rfl, rfl⟩
  | true => rw [ht rfl]; exact ⟨rfl, rfl⟩

theorem addFile (h : Alike times Q d₁ d₂) (ht : times = true → t₁ = t₂) (dir : Location)
    (n : Name) (mode : Mode) :
    Alike times Q (d₁.addFile t₁ dir n mode) (d₂.addFile t₂ dir n mode) :=
  have hnode : (Node.file d₁.nextId #[]).shown = (Node.file d₂.nextId #[]).shown := rfl
  have hadd := h.addEntry ht dir n hnode (mode &&& fileModeMask)
  hadd.withNextId _ _

theorem removeEntry (h : Alike times Q d₁ d₂) (ht : times = true → t₁ = t₂) (dir : Location)
    (n : Name) : Alike times Q (d₁.removeEntry t₁ dir n) (d₂.removeEntry t₂ dir n) :=
  (h.erase _).touch ht dir

end Alike

/-! ## Disks that are the same elsewhere -/

/-- The disk `d'` is the disk `d` but for the locations that satisfy `Q`. -/
def SameOff (Q : Location → Prop) [DecidablePred Q] (d d' : Disk) : Prop :=
  d'.part (fun l => ¬ Q l) = d.part fun l => ¬ Q l

namespace SameOff

theorem refl (d : Disk) : SameOff Q d d := rfl

theorem trans (h : SameOff Q d d₁) (h' : SameOff Q d₁ d₂) : SameOff Q d d₂ := Eq.trans h' h

theorem workingDirectory (h : SameOff Q d d₁) : d₁.workingDirectory = d.workingDirectory :=
  (Disk.mk.inj h).2.2

theorem get? (h : SameOff Q d d₁) (hl : ¬ Q l) : d₁.get? l = d.get? l := by
  have := congrArg (fun d => d.get? l) h
  simpa only [get?_part, if_pos hl] using this

theorem node? (h : SameOff Q d d₁) (hl : ¬ Q l) : d₁.node? l = d.node? l := by
  rw [Disk.node?, h.get? hl, ← Disk.node?]

theorem mono (h : SameOff Q d d₁) (hq : ∀ l, Q l → Q' l) : SameOff Q' d d₁ := by
  have hn : ∀ l, ¬ Q' l → ¬ Q l := fun l hl hq' => hl (hq l hq')
  rw [SameOff, ← part_part hn, show d₁.part _ = _ from h, part_part hn]

/-- Parts elsewhere look as they did. -/
theorem alike (h : SameOff Q' d d₁) (hq : ∀ l, Q l → ¬ Q' l) : Alike times Q d d₁ := by
  rw [Alike, ← part_part hq, ← part_part hq (d := d₁), show d₁.part _ = _ from h]

theorem update (h : Q l) (f : Entry → Entry) : SameOff Q d (d.update l f) :=
  part_update_of_not (not_not_intro h) f

theorem put (h : Q l) (e : Entry) : SameOff Q d (d.put l e) := part_put_of_not (not_not_intro h) e

theorem erase (h : Q l) : SameOff Q d (d.erase l) := part_erase_of_not (not_not_intro h)

theorem withNextId (h : SameOff Q d d₁) (i : Nat) : SameOff Q d { d₁ with nextId := i } := h

theorem addEntry (hdir : Q dir) (hn : Q (dir ++ [n])) {now : Time} {node : Node} {mode : Mode} :
    SameOff Q d (d.addEntry now dir n node mode) := (put hn _).trans (update hdir _)

theorem addFile (hdir : Q dir) (hn : Q (dir ++ [n])) {now : Time} {mode : Mode} :
    SameOff Q d (d.addFile now dir n mode) := (addEntry hdir hn).withNextId _

theorem removeEntry (hdir : Q dir) (hn : Q (dir ++ [n])) {now : Time} :
    SameOff Q d (d.removeEntry now dir n) := (erase hn).trans (update hdir _)

theorem clear (h : ∀ m, l <+: m → Q m) {now : Time} : SameOff Q d (d.clear now l) := by
  unfold Disk.clear
  split
  · exact .refl d
  · have herase : SameOff Q d (d.eraseBelow l) :=
      part_eraseBelow_of_not fun m hm hbelow => absurd (h m hbelow) hm
    exact herase.trans (.update (h l List.prefix_rfl) _)

end SameOff

end Disk

end TwinTrees
