import TwinTrees.Proofs.Base.Making
import TwinTrees.Proofs.Base.Sides
import TwinTrees.Proofs.Disk.Files

/-!
# What shows of the sides of a test

A `View` is what shows of the two trees of a test: the node at each name of each side, without the
identities of files. While no link is on the sides and every entry on them has the bits that a test
gives to entries of its kind (`Base.Plain`), the view is all there is to say of the sides but for
times, and each change of the disk is a change of the view at one name (`View.set`). What an action
does is then said by two conditions on views (`Base.Shows`).
-/

namespace TwinTrees

/-- The nodes of both sides by their names, as they show. -/
abbrev View := Side → Location → Option Node

/-- The view with something else, or nothing, at names of a side. -/
def View.set (v : View) (side : Side) (m : Location) (x : Option Node) : View :=
  fun other l => if other = side ∧ l = m then x else v other l

namespace View

variable {v : View} {side other : Side} {m l : Location} {x y : Option Node}

theorem set_self : v.set side m x side m = x := if_pos ⟨rfl, rfl⟩

theorem set_of_ne (h : l ≠ m) : v.set side m x other l = v other l := if_neg fun heq => h heq.2

theorem set_of_side_ne (h : other ≠ side) : v.set side m x other l = v other l :=
  if_neg fun heq => h heq.1

theorem set_set : (v.set side m x).set side m y = v.set side m y := by
  funext other l
  simp only [set]
  split <;> rfl

end View

namespace Base

variable {b : Base} {mode : Mode} {d d' : Disk} {side : Side} {m above : Location} {n : Name}
  {t : Time} {φ ψ : View → Prop} {f : OpenFile} {bytes : Bytes} {node : Node}

/-- What shows of the sides. -/
def look (b : Base) (d : Disk) : View := fun side m => (d.node? (b.onSide side m)).map Node.shown

/-- The sides are there, no links are on them, and their entries have the bits that a test gives
them. -/
structure Plain (b : Base) (mode : Mode) (d : Disk) : Prop extends b.Rests d where
  sides : ∀ side, d.IsDir (b.onSide side [])
  handsDown : HandsDown mode
  noLink : ∀ side m old, d.node? (b.onSide side m) ≠ some (.symlink old)
  modes : ∀ side m e, d.get? (b.onSide side m) = some e → e.mode = madeMode mode e.node.kind

/-- A plain disk with a view that satisfies `φ`. -/
def Shows (b : Base) (mode : Mode) (φ : View → Prop) (d : Disk) : Prop :=
  b.Plain mode d ∧ φ (b.look d)

theorem look_eq_none_iff : b.look d side m = none ↔ d.node? (b.onSide side m) = none :=
  Option.map_eq_none_iff

theorem look_of_node? (h : d.node? (b.onSide side m) = some node) :
    b.look d side m = some node.shown := by
  rw [look, h, Option.map_some]

theorem look_eq_directory_iff : b.look d side m = some .directory ↔ d.IsDir (b.onSide side m) := by
  rw [look, Option.map_eq_some_iff, Disk.IsDir]
  constructor
  · rintro ⟨node, hnode, hshown⟩
    rw [hnode, Node.shown_eq_directory_iff.1 hshown]
  · intro h
    exact ⟨_, h, rfl⟩

theorem kind?_eq_of_look (h : b.look d side m = b.look d' side m) :
    d.kind? (b.onSide side m) = d'.kind? (b.onSide side m) := by
  have hkind : ∀ x : Option Node, x.map Node.kind = (x.map Node.shown).map Node.kind := by
    intro x
    rw [Option.map_map]
    congr 1
    funext node
    exact node.kind_shown.symm
  rw [Disk.kind?, Disk.kind?, hkind, hkind (d'.node? _)]
  exact congrArg _ h

theorem not_off_onSide (b : Base) (side : Side) (m : Location) : ¬ b.Off (b.onSide side m) :=
  b.not_off_append (List.cons_ne_nil _ _)

theorem onSide_eq_iff {other : Side} {l : Location} :
    b.onSide other l = b.onSide side m ↔ other = side ∧ l = m := by
  constructor
  · intro heq
    by_cases hside : other = side
    · subst hside
      exact ⟨rfl, onSide_inj.1 heq⟩
    · exact absurd heq (onSide_ne side hside List.prefix_rfl)
  · rintro ⟨rfl, rfl⟩
    rfl

namespace Plain

/-- The bits of a directory that a test makes, or copies, on a side. -/
theorem directoryMode (h : b.Plain mode d) (isDir : d.IsDir (b.onSide side m)) {bits : Mode}
    (hbits : bits = Tree.directoryMode ∨ bits = mode) : d.directoryMode (b.onSide side m) bits = mode := by
  obtain ⟨e, he, hnode⟩ := Disk.isDir_iff.1 isDir
  have hmode : e.mode = mode := by
    rw [h.modes side m e he, hnode]
    rfl
  rcases hbits with rfl | rfl
  · exact Disk.directoryMode_of_handsDown h.handsDown he hmode
  · exact Disk.directoryMode_copy h.handsDown he hmode

/-- What shows of an entry is its node and the bits of its kind. -/
theorem map_shown (h : b.Plain mode d) (side : Side) (m : Location) :
    (d.get? (b.onSide side m)).map (Entry.shown false) =
      (b.look d side m).map fun node => ⟨node, madeMode mode node.kind, ⟨0, 0⟩, ⟨0, 0⟩⟩ := by
  rw [look, Disk.node?]
  cases hget : d.get? (b.onSide side m) with
  | none => rfl
  | some e =>
    simp only [Option.map_some, Entry.shown, h.modes side m e hget, Node.kind_shown]
    rfl

/-- A disk that has changed is plain again if what is new on the sides is. -/
theorem change (h : b.Plain mode d) (rests : b.Rests d') (sides : ∀ side, d'.IsDir (b.onSide side []))
    (new : ∀ side m e, d'.get? (b.onSide side m) = some e →
      (∃ old, d.get? (b.onSide side m) = some old ∧ e.node.kind = old.node.kind ∧
        e.mode = old.mode) ∨
      e.node.kind ≠ .symlink ∧ e.mode = madeMode mode e.node.kind) : b.Plain mode d' where
  toRests := rests
  sides := sides
  handsDown := h.handsDown
  noLink side m old hold := by
    obtain ⟨e, he, hnode⟩ := Disk.node?_eq_some_iff.1 hold
    have hlink : e.node.kind = .symlink := by rw [hnode]; rfl
    rcases new side m e he with ⟨e', he', hkind, -⟩ | ⟨hkind, -⟩
    · obtain ⟨old', hold'⟩ := Disk.kind?_eq_symlink_iff.1
        ((Disk.kind?_of_get? he').trans (congrArg some (hkind.symm.trans hlink)))
      exact h.noLink side m old' hold'
    · exact hkind hlink
  modes side m e he := by
    rcases new side m e he with ⟨e', he', hkind, hmode⟩ | ⟨-, hmode⟩
    · rw [hmode, h.modes side m e' he', hkind]
    · exact hmode

end Plain

/-! ## Changes -/

namespace Shows

theorem mono (h : b.Shows mode φ d) (hφ : ∀ v, φ v → ψ v) : b.Shows mode ψ d := ⟨h.1, hφ _ h.2⟩

theorem withNextId (h : b.Shows mode φ d) (i : Nat) : b.Shows mode φ { d with nextId := i } :=
  ⟨h.1.change (h.1.of_same (h.1.tree.withNextId i) rfl) h.1.sides fun _ _ e he => .inl ⟨e, he, rfl, rfl⟩, h.2⟩

/-- A new entry on a side. -/
theorem addEntry (h : b.Shows mode φ d) (isDir : d.IsDir (b.onSide side above))
    (free : d.node? (b.onSide side (above ++ [n])) = none) (isName : IsName n)
    (hnode : node.kind ≠ .symlink)
    (hφ : ∀ v, φ v → v side (above ++ [n]) = none →
      ψ (v.set side (above ++ [n]) (some node.shown))) :
    b.Shows mode ψ (d.addEntry t (b.onSide side above) n node (madeMode mode node.kind)) := by
  have hnew : b.onSide side above ++ [n] = b.onSide side (above ++ [n]) :=
    (b.onSide_append side above [n]).symm
  have hlook : b.look (d.addEntry t (b.onSide side above) n node (madeMode mode node.kind)) =
      (b.look d).set side (above ++ [n]) (some node.shown) := by
    funext other l
    simp only [look, View.set, Disk.node?_addEntry, hnew, onSide_eq_iff]
    split <;> rfl
  refine ⟨h.1.change (h.1.of_same (h.1.tree.addEntry isDir (hnew ▸ free) isName)
    (.addEntry (b.not_off_onSide side above) (hnew ▸ b.not_off_onSide side _))) (fun other => ?_)
    fun other l e he => ?_, hlook ▸ hφ _ h.2 (look_eq_none_iff.2 free)⟩
  · rw [Disk.IsDir, Disk.node?_addEntry, hnew, if_neg]
    · exact h.1.sides other
    · intro heq
      exact absurd (onSide_eq_iff.1 heq).2 (by simp)
  · rw [Disk.get?_addEntry] at he
    split at he
    · cases he
      exact .inr ⟨hnode, rfl⟩
    · split at he
      · obtain ⟨old, hold, rfl⟩ := Option.map_eq_some_iff.1 he
        exact .inl ⟨old, hold, rfl, rfl⟩
      · exact .inl ⟨e, he, rfl, rfl⟩

/-- A new empty file on a side. -/
theorem addFile (h : b.Shows mode φ d) (isDir : d.IsDir (b.onSide side above))
    (free : d.node? (b.onSide side (above ++ [n])) = none) (isName : IsName n)
    (hφ : ∀ v, φ v → v side (above ++ [n]) = none →
      ψ (v.set side (above ++ [n]) (some (.file 0 #[])))) :
    b.Shows mode ψ (d.addFile t (b.onSide side above) n Tree.fileMode) :=
  have hadd : b.Shows mode ψ
      (d.addEntry t (b.onSide side above) n (.file d.nextId #[]) Tree.fileMode) :=
    h.addEntry isDir free isName (fun h => by cases h) hφ
  hadd.withNextId _

/-- An entry on a side is removed that has nothing in it. -/
theorem removeEntry (h : b.Shows mode φ d)
    (leaf : ∀ k, d.node? (b.onSide side (above ++ [n]) ++ [k]) = none)
    (hφ : ∀ v, φ v → ψ (v.set side (above ++ [n]) none)) :
    b.Shows mode ψ (d.removeEntry t (b.onSide side above) n) := by
  have hold : b.onSide side above ++ [n] = b.onSide side (above ++ [n]) :=
    (b.onSide_append side above [n]).symm
  have hlook : b.look (d.removeEntry t (b.onSide side above) n) =
      (b.look d).set side (above ++ [n]) none := by
    funext other l
    simp only [look, View.set, Disk.node?_removeEntry, hold, onSide_eq_iff]
    split <;> rfl
  refine ⟨h.1.change (h.1.of_same (h.1.tree.removeEntry (hold ▸ leaf))
    (.removeEntry (b.not_off_onSide side above) (hold ▸ b.not_off_onSide side _))) (fun other => ?_)
    fun other l e he => ?_, hlook ▸ hφ _ h.2⟩
  · rw [Disk.IsDir, Disk.node?_removeEntry, hold, if_neg]
    · exact h.1.sides other
    · intro heq
      exact absurd (onSide_eq_iff.1 heq).2 (by simp)
  · rw [Disk.get?_removeEntry] at he
    split at he
    · cases he
    · split at he
      · obtain ⟨old, hold, rfl⟩ := Option.map_eq_some_iff.1 he
        exact .inl ⟨old, hold, rfl, rfl⟩
      · exact .inl ⟨e, he, rfl, rfl⟩

/-- Other bytes in a file, which is on a side or is none of those. -/
theorem store (h : b.Shows mode φ d) (below : ¬ b.Off f.location)
    (hφ : ψ (b.look (d.store t f bytes))) : b.Shows mode ψ (d.store t f bytes) := by
  refine ⟨h.1.change (h.1.of_same h.1.tree.store (.update below _)) (fun other => ?_) fun other l e he => ?_, hφ⟩
  · exact Disk.node?_store_of_some (h.1.sides other) (fun h => by cases h)
  · exact .inl (Disk.of_get?_store he)

/-- Other bytes in a file of a side that is held open. -/
theorem storeHeld (h : b.Shows mode φ d) (held : d.Holds f) (hf : f.location = b.onSide side m)
    (hφ : ∀ v, φ v → ψ (v.set side m (some (.file 0 bytes)))) :
    b.Shows mode ψ (d.store t f bytes) := by
  refine h.store (hf ▸ b.not_off_onSide side m) ?_
  have hlook : b.look (d.store t f bytes) = (b.look d).set side m (some (.file 0 bytes)) := by
    funext other l
    simp only [look, View.set, ← onSide_eq_iff (b := b), ← hf]
    rw [Disk.node?, held.get?_store]
    split
    · obtain ⟨e, old, he, -⟩ := held.get?
      next heq =>
      rw [heq, he]
      rfl
    · rfl
  exact hlook ▸ hφ _ h.2

/-- An entry is given a time. -/
theorem setTimesAt (h : b.Shows mode φ d) (side : Side) (m : Location) :
    b.Shows mode φ (d.setTimesAt (b.onSide side m) t) := by
  have hlook : b.look (d.setTimesAt (b.onSide side m) t) = b.look d := by
    funext other l
    simp only [look, Disk.node?_setTimesAt]
  refine ⟨h.1.change (h.1.of_same (h.1.tree.update_of_node fun _ => rfl)
    (.update (b.not_off_onSide side m) _)) (fun other => ?_) fun other l e he => ?_, hlook ▸ h.2⟩
  · rw [Disk.IsDir, Disk.node?_setTimesAt]
    exact h.1.sides other
  · rw [Disk.setTimesAt, Disk.get?_update] at he
    split at he
    · obtain ⟨old, hold, rfl⟩ := Option.map_eq_some_iff.1 he
      exact .inl ⟨old, hold, rfl, rfl⟩
    · exact .inl ⟨e, he, rfl, rfl⟩

end Shows

end Base

end TwinTrees
