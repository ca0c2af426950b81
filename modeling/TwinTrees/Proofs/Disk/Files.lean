import TwinTrees.Proofs.Disk.Kind

/-!
# Files that are held open

A file that is held open stays in its place until it is removed (`Disk.Holds`). Writing to it changes
its bytes and its time, and no entry becomes one of another kind.
-/

namespace TwinTrees.Disk

variable {d : Disk} {f g : OpenFile} {t : Time} {l dir : Location} {n : Name} {bytes : Bytes}

/-- The file that is held open is in its place. -/
def Holds (d : Disk) (f : OpenFile) : Prop :=
  ∃ bytes, d.node? f.location = some (.file f.id bytes)

theorem Holds.get? (h : d.Holds f) :
    ∃ e bytes, d.get? f.location = some e ∧ e.node = .file f.id bytes := by
  obtain ⟨bytes, h⟩ := h
  obtain ⟨e, he, hnode⟩ := node?_eq_some_iff.1 h
  exact ⟨e, bytes, he, hnode⟩

theorem Holds.load (h : d.node? f.location = some (.file f.id bytes)) :
    d.load f = bytes := by
  unfold Disk.load
  rw [show (d.get? f.location).map Entry.node = _ from h]
  exact if_pos rfl

theorem Holds.addFile (h : d.Holds f) (free : d.node? (dir ++ [n]) = none) {mode : Mode} :
    (d.addFile t dir n mode).Holds f := by
  obtain ⟨bytes, h⟩ := h
  refine ⟨bytes, ?_⟩
  rw [← h]
  refine node?_addEntry.trans (if_neg ?_)
  intro heq
  rw [heq, free] at h
  cases h

theorem holds_addFile (d : Disk) (t : Time) (dir : Location) (n : Name) (mode : Mode) :
    (d.addFile t dir n mode).Holds ⟨dir ++ [n], d.nextId⟩ :=
  ⟨#[], node?_addEntry.trans (if_pos rfl)⟩

theorem Holds.store (h : d.Holds f) (bytes : Bytes) : (d.store t g bytes).Holds f := by
  obtain ⟨e, old, he, hnode⟩ := h.get?
  unfold Holds node? Disk.store
  rw [get?_update]
  split
  · rw [he, Option.map_some, Option.map_some, hnode]
    simp only
    split
    · exact ⟨bytes, rfl⟩
    · exact ⟨old, congrArg some hnode⟩
  · exact ⟨old, by rw [he]; exact congrArg some hnode⟩

theorem Holds.get?_store (h : d.Holds f) :
    (d.store t f bytes).get? l = if l = f.location then
      (d.get? l).map fun e => { e with node := .file f.id bytes, modified := t } else d.get? l := by
  obtain ⟨e, old, he, hnode⟩ := h.get?
  rw [Disk.store, get?_update]
  split
  · next heq =>
    rw [heq, he, Option.map_some, Option.map_some]
    simp only [hnode, if_pos]
  · rfl

theorem Holds.node?_store (h : d.Holds f) :
    (d.store t f bytes).node? f.location = some (.file f.id bytes) := by
  obtain ⟨e, old, he, -⟩ := h.get?
  rw [node?, h.get?_store, if_pos rfl, he]
  rfl

theorem node?_append {old : Bytes} (h : d.node? f.location = some (.file f.id old)) :
    (d.append t f bytes).node? f.location = some (.file f.id (old ++ bytes)) := by
  have holds : d.Holds f := ⟨old, h⟩
  rw [append, holds.node?_store, Holds.load h]

/-- The entry of a file that is held open gets longer. -/
theorem get?_append {e : Entry} {old : Bytes} (h : d.get? f.location = some e)
    (hnode : e.node = .file f.id old) :
    (d.append t f bytes).get? f.location =
      some { e with node := .file f.id (old ++ bytes), modified := t } := by
  have hfile : d.node? f.location = some (.file f.id old) := hnode ▸ node?_of_get? h
  have holds : d.Holds f := ⟨old, hfile⟩
  rw [append, holds.get?_store, if_pos rfl, h, Holds.load hfile, Option.map_some]

theorem get?_addFile (d : Disk) (t : Time) (dir : Location) (n : Name) (mode : Mode) :
    (d.addFile t dir n mode).get? (dir ++ [n]) =
      some ⟨.file d.nextId #[], mode &&& fileModeMask, t, t⟩ :=
  (get?_addEntry ..).trans (if_pos rfl)

/-- What is read from a new file is what was written to it. -/
theorem get?_append_addFile (d : Disk) (t t' : Time) (dir : Location) (n : Name) (mode : Mode)
    (bytes : Bytes) (l : Location) :
    ((d.addFile t dir n mode).append t' ⟨dir ++ [n], d.nextId⟩ bytes).get? l =
      if l = dir ++ [n] then some ⟨.file d.nextId bytes, mode &&& fileModeMask, t, t'⟩
      else (d.addFile t dir n mode).get? l := by
  split
  · next hl =>
    rw [hl, get?_append (f := ⟨dir ++ [n], d.nextId⟩) (get?_addFile ..) rfl, Array.empty_append]
  · next hl => rw [append, store, get?_update, if_neg hl]

/-! ## What writing changes -/

/-- Nothing changes elsewhere. -/
theorem get?_store_of_ne (h : l ≠ f.location) : (d.store t f bytes).get? l = d.get? l := by
  rw [store, get?_update, if_neg h]

theorem kind?_store : (d.store t f bytes).kind? l = d.kind? l := by
  rw [kind?, kind?, node?, node?, store, get?_update]
  split
  · cases d.get? l with
    | none => rfl
    | some e =>
      simp only [Option.map_some, Option.some.injEq]
      cases hnode : e.node with
      | directory => simp [hnode]
      | symlink old => simp [hnode]
      | file id old =>
        simp only
        split
        · rfl
        · rw [hnode]
  · rfl

/-- Directories and links stay what they are. -/
theorem node?_store_of_some {node : Node} (h : d.node? l = some node) (hnode : node.kind ≠ .file) :
    (d.store t f bytes).node? l = some node := by
  obtain ⟨e, he, rfl⟩ := node?_eq_some_iff.1 h
  rw [node?, store, get?_update, he]
  split
  · cases hnode' : e.node with
    | directory => simp [hnode']
    | symlink old => simp [hnode']
    | file id old => rw [hnode'] at hnode; exact absurd rfl hnode
  · rfl

theorem IsDir.store (h : d.IsDir l) : (d.store t f bytes).IsDir l := node?_store_of_some h nofun

/-- An entry keeps its kind and its bits. -/
theorem of_get?_store {e : Entry} (h : (d.store t f bytes).get? l = some e) :
    ∃ old, d.get? l = some old ∧ e.node.kind = old.node.kind ∧ e.mode = old.mode := by
  have hkind := kind?_of_get? h
  rw [kind?_store] at hkind
  rw [store, get?_update] at h
  cases hget : d.get? l with
  | none =>
    rw [kind?_eq_none_iff.2 (node?_eq_none_iff.2 hget)] at hkind
    cases hkind
  | some old =>
    rw [kind?_of_get? hget] at hkind
    rw [hget] at h
    refine ⟨old, rfl, (Option.some.inj hkind).symm, ?_⟩
    split at h
    · cases h
      simp only
      split
      · split <;> rfl
      · rfl
    · cases h
      rfl

theorem IsTree.store (h : d.IsTree) : (d.store t f bytes).IsTree := by
  refine h.update fun e _ => ?_
  cases hnode : e.node with
  | directory => simp [hnode]
  | symlink old => simp [hnode]
  | file id old =>
    simp only
    split
    · rfl
    · rw [hnode]

end TwinTrees.Disk
