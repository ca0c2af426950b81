import TwinTrees.Proofs.Disk.Files
import TwinTrees.Proofs.Site.Basic

/-!
# Changes inside a site

What a single change inside the sides of a test leaves: the disk is still one on which the test can
act, and it is what it was everywhere else. `Site.Within` says both. A new entry must be free,
well named and, if it is a link, lead inside; a removed entry must have nothing below it.
-/

namespace TwinTrees

namespace Site

variable {s : Site} {d d' d'' : Disk} {l dir : Location} {n : Name} {now : Time}

/-- The disk has changed inside the sides of the test only, and the test can still act on it. -/
structure Within (s : Site) (d d' : Disk) : Prop where
  standing : s.Standing d'
  off : Disk.SameOff s.Inside d d'

/-- An event in the log does not change the sides. -/
theorem get?_writeLog {f : OpenFile} (hf : f.location = s.log) {bytes : Bytes} (hl : s.Inside l) :
    (d.append now f bytes).get? l = d.get? l := by
  refine Disk.get?_store_of_ne ?_
  rintro rfl
  exact hl.ne_log hf

namespace Standing

theorem within_refl (h : s.Standing d) : s.Within d d := ⟨h, .refl d⟩

/-- The test can act on a disk that has changed below its directory, if the sides are there and all
links are old or lead inside. -/
theorem preserve (h : s.Standing d) (off : Disk.SameOff s.Below d d') (tree : d'.IsTree)
    (sides : ∀ side, d'.IsDir (s.side side))
    (links : ∀ l target, s.Inside l → d'.node? l = some (.symlink target) →
      d.node? l = some (.symlink target) ∨ s.Leads target) : s.Standing d' where
  tree := tree
  route := by
    rw [show d'.part _ = _ from off, off.workingDirectory]
    exact h.route
  sides := sides
  enclosed hin hl := (links _ _ hin hl).elim (h.enclosed hin) id

theorem within (h : s.Standing d) (off : Disk.SameOff s.Inside d d') (tree : d'.IsTree)
    (sides : ∀ side, d'.IsDir (s.side side))
    (links : ∀ l target, s.Inside l → d'.node? l = some (.symlink target) →
      d.node? l = some (.symlink target) ∨ s.Leads target) : s.Within d d' :=
  ⟨h.preserve (off.mono fun _ => Inside.below) tree sides links, off⟩

/-- A new entry in a directory inside. -/
theorem addEntry (h : s.Standing d) {node : Node} {mode : Mode} (inside : s.Inside dir)
    (isDir : d.IsDir dir) (free : d.node? (dir ++ [n]) = none) (hn : IsName n)
    (hlink : ∀ target, node = .symlink target → s.Leads target) :
    s.Within d (d.addEntry now dir n node mode) := by
  refine h.within (.addEntry inside (inside.append [n])) (h.tree.addEntry isDir free hn) ?_ ?_
  · intro side
    have hside := h.sides side
    rw [Disk.IsDir] at hside ⊢
    rw [Disk.node?_addEntry, if_neg, hside]
    intro heq
    rw [heq, free] at hside
    cases hside
  · intro l target _ hl
    rw [Disk.node?_addEntry] at hl
    split at hl
    · cases hl; exact .inr (hlink target rfl)
    · exact .inl hl

theorem withNextId (h : s.Standing d) (i : Nat) : s.Standing { d with nextId := i } where
  tree := h.tree.withNextId i
  route := h.route
  sides := h.sides
  enclosed := h.enclosed

theorem addFile (h : s.Standing d) {mode : Mode} (inside : s.Inside dir) (isDir : d.IsDir dir)
    (free : d.node? (dir ++ [n]) = none) (hn : IsName n) :
    s.Within d (d.addFile now dir n mode) :=
  have hadd : s.Within d (d.addEntry now dir n (.file d.nextId #[]) (mode &&& fileModeMask)) :=
    h.addEntry inside isDir free hn nofun
  ⟨hadd.standing.withNextId _, hadd.off⟩

/-- Changes of an entry that leave it what it is, but for the bytes of a file. -/
def KeepsNode (f : Entry → Entry) : Prop :=
  ∀ e, (f e).node = e.node ∨ ∃ id old new, e.node = .file id old ∧ (f e).node = .file id new

theorem KeepsNode.store (f : OpenFile) (now : Time) (bytes : Bytes) :
    KeepsNode fun e =>
      match e.node with
      | .file id _ =>
        if id = f.id then { e with node := .file id bytes, modified := now } else e
      | _ => e := by
  intro e
  beta_reduce
  cases hnode : e.node with
  | directory => exact .inl hnode
  | symlink target => exact .inl hnode
  | file id old =>
    simp only
    split
    · exact .inr ⟨id, old, bytes, rfl, rfl⟩
    · exact .inl hnode

theorem isTree_update (h : s.Standing d) {f : Entry → Entry} (hf : KeepsNode f) :
    (d.update l f).IsTree := h.tree.update fun e _ => by
  obtain he | ⟨id, old, new, he, he'⟩ := hf e
  · rw [he]
  · rw [he, he']; rfl

theorem isDir_update {f : Entry → Entry} (hf : KeepsNode f) {m : Location} (hm : d.IsDir m) :
    (d.update l f).IsDir m := by
  obtain ⟨e, he, hnode⟩ := Disk.isDir_iff.1 hm
  rw [Disk.IsDir, Disk.node?, Disk.get?_update, he]
  split
  · obtain hfe | ⟨id, old, new, hfile, -⟩ := hf e
    · exact congrArg some (hfe.trans hnode)
    · rw [hnode] at hfile; cases hfile
  · exact congrArg some hnode

theorem symlink_of_update {f : Entry → Entry} (hf : KeepsNode f) {m : Location} {target : Path}
    (hm : (d.update l f).node? m = some (.symlink target)) :
    d.node? m = some (.symlink target) := by
  rw [Disk.node?, Disk.get?_update] at hm
  split at hm
  · cases hd : d.get? m with
    | none => rw [hd] at hm; cases hm
    | some e =>
      rw [hd] at hm
      obtain he | ⟨id, old, new, -, he⟩ := hf e
      · exact (Disk.node?_of_get? hd).trans (he ▸ hm)
      · rw [Option.map_some, Option.map_some, he] at hm; cases hm
  · exact hm

theorem update (h : s.Standing d) (inside : s.Inside l) {f : Entry → Entry} (hf : KeepsNode f) :
    s.Within d (d.update l f) :=
  h.within (.update inside f) (h.isTree_update hf) (fun side => isDir_update hf (h.sides side))
    fun _ _ _ hm => .inl (symlink_of_update hf hm)

/-- The test can act on the disk after something was written to its log. -/
theorem writeLog (h : s.Standing d) {f : OpenFile} (hf : f.location = s.log) {bytes : Bytes} :
    s.Standing (d.append now f bytes) :=
  h.preserve (.update (by rw [hf]; exact List.prefix_append _ _) _) (h.isTree_update (.store f _ _))
    (fun side => isDir_update (.store f _ _) (h.sides side))
    fun _ _ _ hm => .inl (symlink_of_update (.store f _ _) hm)

theorem setTimesAt (h : s.Standing d) (inside : s.Inside l) (t : Time) :
    s.Within d (d.setTimesAt l t) := h.update inside fun _ => .inl rfl

theorem store (h : s.Standing d) {f : OpenFile} (inside : s.Inside f.location) (bytes : Bytes) :
    s.Within d (d.store now f bytes) := h.update inside (.store f now bytes)

/-- The removal of an entry that has nothing below it from a directory inside. -/
theorem removeEntry (h : s.Standing d) (inside : s.Inside dir)
    (hleaf : ∀ m, d.node? (dir ++ [n] ++ [m]) = none) :
    s.Within d (d.removeEntry now dir n) := by
  refine h.within (.removeEntry inside (inside.append [n])) (h.tree.removeEntry hleaf) ?_ ?_
  · intro side
    have hside := h.sides side
    rw [Disk.IsDir] at hside ⊢
    rw [Disk.node?_removeEntry, if_neg, hside]
    intro heq
    obtain ⟨heq, -⟩ := List.append_inj' heq rfl
    exact inside.ne_root heq.symm
  · intro m target _ hm
    rw [Disk.node?_removeEntry] at hm
    split at hm
    · cases hm
    · exact .inl hm

/-- Nothing is below an entry that is no directory. -/
theorem node?_below (h : s.Standing d) (hl : ¬ d.IsDir l) (m : Name) :
    d.node? (l ++ [m]) = none := by
  by_contra hm
  exact hl (h.tree.parent hm)

end Standing

end Site

end TwinTrees
