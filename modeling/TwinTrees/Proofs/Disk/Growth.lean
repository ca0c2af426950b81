import TwinTrees.Proofs.Always
import TwinTrees.Proofs.Disk.Extension
import TwinTrees.Proofs.Disk.Files

/-!
# Making entries only adds to a disk

When entries are made, what was there stays (`Entry.Kept`): a directory may be modified, since there
is something new in it, and the log may get longer, since events are written to it. What is new is
where something was asked for, or is one of the directories that were missing on the way to it
(`Disk.IsNewDirectory`). `Disk.Adds` says both. It is kept by every request that makes an entry,
whether the action that asks for it fails later or not.
-/

namespace TwinTrees

open TwinTrees.Action (Always)

/-- The log is written to this file. -/
def LogSink.WritesTo (s : LogSink) (f : OpenFile) : Prop := ∃ path, s = .file path f

/-- What may become of the entry at a location while others are made. -/
inductive Entry.Kept (sink : LogSink) (l : Location) (old : Entry) : Entry → Prop
  | same : Kept sink l old old
  | listed (isDir : old.node = .directory) (t : Time) : Kept sink l old { old with modified := t }
  | logged {id : Nat} {bytes : Bytes} (isFile : old.node = .file id bytes)
      (log : sink.WritesTo ⟨l, id⟩) (more : Bytes) (t : Time) :
      Kept sink l old { old with node := .file id (bytes ++ more), modified := t }

namespace Entry.Kept

variable {sink : LogSink} {l : Location} {old new new' : Entry}

theorem trans (h : old.Kept sink l new) (h' : new.Kept sink l new') : old.Kept sink l new' := by
  cases h with
  | same => exact h'
  | listed isDir t =>
    cases h' with
    | same => exact .listed isDir t
    | listed _ t' => exact .listed isDir t'
    | logged isFile => cases isDir.symm.trans isFile
  | logged isFile log more t =>
    cases h' with
    | same => exact .logged isFile log more t
    | listed isDir => cases isDir
    | logged isFile' _ more' t' =>
      cases isFile'
      have happend := logged isFile log (more ++ more') t'
      rwa [← Array.append_assoc] at happend

theorem mode (h : old.Kept sink l new) : new.mode = old.mode := by cases h <;> rfl

theorem kind (h : old.Kept sink l new) : new.node.kind = old.node.kind := by
  cases h with
  | same => rfl
  | listed => rfl
  | logged isFile => rw [isFile]; rfl

/-- Directories and links stay what they are, and files that are not the log. -/
theorem node (h : old.Kept sink l new) (notLog : ∀ id bytes, old.node = .file id bytes →
    ¬ sink.WritesTo ⟨l, id⟩) : new.node = old.node := by
  cases h with
  | same => rfl
  | listed => rfl
  | logged isFile log => exact absurd log (notLog _ _ isFile)

/-- What is neither a directory nor the log is left as it is. -/
theorem eq (h : old.Kept sink l new) (notDir : old.node ≠ .directory)
    (notLog : ∀ id bytes, old.node = .file id bytes → ¬ sink.WritesTo ⟨l, id⟩) : new = old := by
  cases h with
  | same => rfl
  | listed isDir => exact absurd isDir notDir
  | logged isFile log => exact absurd log (notLog _ _ isFile)

end Entry.Kept

namespace Disk

variable {sink : LogSink} {new new' : Location → Prop} {u d d' : Disk} {l dir : Location} {n : Name}
  {e : Entry} {t : Time} {p : Path} {ε : Type}

/-- Writing to a file takes nothing away. -/
theorem persists_store {f : OpenFile} {bytes : Bytes} : Persists d (d.store t f bytes) where
  node l node hl := by
    have hkind : (d.store t f bytes).kind? l = some node.kind := by
      rw [kind?_store, kind?, hl]
      rfl
    obtain ⟨node', hnode', hsame⟩ := Option.map_eq_some_iff.1 hkind
    refine ⟨node', hnode', hsame, fun hne => Option.some.inj (hnode'.symm.trans ?_)⟩
    exact node?_store_of_some hl hne
  workingDirectory := rfl

theorem get?_store_eq_none_iff {f : OpenFile} {bytes : Bytes} :
    (d.store t f bytes).get? l = none ↔ d.get? l = none := by
  rw [← node?_eq_none_iff, ← kind?_eq_none_iff, kind?_store, kind?_eq_none_iff, node?_eq_none_iff]

/-- An event that is written to the log takes nothing away. -/
theorem kept_append {path : Path} {f : OpenFile} {bytes : Bytes} {old : Entry}
    (hsink : sink = .file path f) (hl : d.get? l = some old) :
    ∃ e, (d.append t f bytes).get? l = some e ∧ old.Kept sink l e := by
  rw [append, Disk.store, get?_update, hl]
  split
  · next heq =>
    subst heq
    refine ⟨_, rfl, ?_⟩
    simp only
    split
    · next id content hnode =>
      split
      · next hid =>
        subst hid
        rw [Holds.load (by rw [node?_of_get? hl, hnode])]
        exact .logged hnode ⟨path, hsink⟩ bytes t
      · exact .same
    · exact .same
  · exact ⟨_, rfl, .same⟩

/-- The entry at the location is a directory with the bits of one that was made on the way to
another entry: those that it is made with, and the one that the directory above hands down. -/
def IsNewDirectory (d : Disk) (l : Location) (e : Entry) : Prop :=
  e.node = .directory ∧ ∃ dir n above, l = dir ++ [n] ∧ d.get? dir = some above ∧
    e.mode = Tree.directoryMode ||| (above.mode &&& inheritedBit)

/-- The disk `d` is the disk `u` with more entries: at the locations `new`, and directories (see the
module docstring). -/
structure Adds (sink : LogSink) (new : Location → Prop) (u d : Disk) : Prop where
  tree : d.IsTree
  working : d.IsDir d.workingDirectory
  workingDirectory : d.workingDirectory = u.workingDirectory
  nextId : u.nextId ≤ d.nextId
  kept : ∀ l old, u.get? l = some old → ∃ e, d.get? l = some e ∧ old.Kept sink l e
  added : ∀ l e, u.get? l = none → d.get? l = some e → new l ∨ d.IsNewDirectory l e

namespace Adds

theorem refl (sink : LogSink) (new : Location → Prop) (tree : u.IsTree)
    (working : u.IsDir u.workingDirectory) : Adds sink new u u where
  tree := tree
  working := working
  workingDirectory := rfl
  nextId := Nat.le_refl _
  kept _ old h := ⟨old, h, .same⟩
  added l e hu hd := by rw [hu] at hd; cases hd

theorem mono (h : Adds sink new u d) (hnew : ∀ l, new l → new' l) : Adds sink new' u d :=
  { h with added := fun l e hu hd => (h.added l e hu hd).imp_left (hnew l) }

theorem trans (h : Adds sink new u d) (h' : Adds sink new' d d') :
    Adds sink (fun l => new l ∨ new' l) u d' where
  tree := h'.tree
  working := h'.working
  workingDirectory := h'.workingDirectory.trans h.workingDirectory
  nextId := Nat.le_trans h.nextId h'.nextId
  kept l old hu := by
    obtain ⟨e, hd, hkept⟩ := h.kept l old hu
    obtain ⟨e', hd', hkept'⟩ := h'.kept l e hd
    exact ⟨e', hd', hkept.trans hkept'⟩
  added l e hu hd' := by
    cases hd : d.get? l with
    | none => exact (h'.added l e hd hd').imp_left .inr
    | some e₀ =>
      obtain ⟨e', he', hkept⟩ := h'.kept l e₀ hd
      obtain rfl := Option.some.inj (he'.symm.trans hd')
      obtain hnew | ⟨hnode, dir, n, above, rfl, habove, hmode⟩ := h.added l e₀ hu hd
      · exact .inl (.inl hnew)
      · obtain ⟨above', habove', hkept'⟩ := h'.kept _ _ habove
        refine .inr ⟨?_, dir, n, above', rfl, habove', ?_⟩
        · rw [← kind_eq_directory_iff, hkept.kind, hnode]
          rfl
        · rw [hkept.mode, hkept'.mode, hmode]

/-- Steps that add at the same locations make one. -/
theorem step (h : Adds sink new u d) (h' : Adds sink new d d') : Adds sink new u d' :=
  (h.trans h').mono fun _ => Or.rec id id

theorem persists (h : Adds sink new u d) : Persists u d where
  node l node hl := by
    obtain ⟨old, hold, rfl⟩ := node?_eq_some_iff.1 hl
    obtain ⟨e, he, hkept⟩ := h.kept l old hold
    refine ⟨e.node, node?_of_get? he, hkept.kind, fun hne => hkept.node fun id bytes hfile => ?_⟩
    rw [hfile] at hne
    exact absurd rfl hne
  workingDirectory := h.workingDirectory

theorem sound (h : Adds sink new u d) (p : Path) : d.IsSound p := .of_working h.tree h.working

/-- What is free was free before. -/
theorem free_of_free (h : Adds sink new u d) (free : d.get? l = none) : u.get? l = none :=
  node?_eq_none_iff.1 (h.persists.free (node?_eq_none_iff.2 free))

/-- What is there was there before, or is no file that was opened before. -/
theorem eq_of_kept (h : Adds sink new d d') (hd : d.get? l = some e) (notDir : e.node ≠ .directory)
    (notLog : ∀ id bytes, e.node = .file id bytes → ¬ sink.WritesTo ⟨l, id⟩) :
    d'.get? l = some e := by
  obtain ⟨e', he', hkept⟩ := h.kept l e hd
  rw [he', hkept.eq notDir notLog]

/-! ## Requests -/

/-- A new entry in a directory. -/
theorem addEntry (h : Adds sink new u d) (isDir : d.IsDir dir) (free : d.node? (dir ++ [n]) = none)
    (isName : IsName n) {node : Node} {mode : Mode} (hnew : new (dir ++ [n]) ∨
      node = .directory ∧ mode = d.directoryMode dir Tree.directoryMode) :
    Adds sink new u (d.addEntry t dir n node mode) := by
  have hne : ∀ {l e}, d.get? l = some e → l ≠ dir ++ [n] := by
    rintro l e hl rfl
    rw [node?_eq_none_iff.1 free] at hl
    cases hl
  have hkept : ∀ l old, d.get? l = some old →
      ∃ e, (d.addEntry t dir n node mode).get? l = some e ∧ old.Kept sink l e := by
    intro l old hl
    rw [get?_addEntry, if_neg (hne hl), hl]
    split
    · next hdir =>
      rw [hdir] at hl
      rw [IsDir, node?_of_get? hl] at isDir
      exact ⟨_, rfl, .listed (Option.some.inj isDir) t⟩
    · exact ⟨_, rfl, .same⟩
  refine h.step ⟨h.tree.addEntry isDir free isName, ?_, rfl, Nat.le_refl _, hkept, fun l e hl he => ?_⟩
  · obtain ⟨e, he, hnode⟩ := isDir_iff.1 h.working
    exact node?_addEntry.trans ((if_neg (hne he)).trans h.working)
  · rw [get?_addEntry] at he
    split at he
    · next heq =>
      cases he
      rw [heq]
      obtain hnew | ⟨hnode, hmode⟩ := hnew
      · exact .inl hnew
      obtain ⟨above, habove, -⟩ := isDir_iff.1 isDir
      obtain ⟨above', habove', hkept'⟩ := hkept dir above habove
      refine .inr ⟨hnode, dir, n, above', rfl, habove', ?_⟩
      rw [hkept'.mode, hmode, directoryMode, habove]
      rfl
    · split at he <;> rw [hl] at he <;> cases he

theorem addFile (h : Adds sink new u d) (isDir : d.IsDir dir) (free : d.node? (dir ++ [n]) = none)
    (isName : IsName n) (hnew : new (dir ++ [n])) {mode : Mode} :
    Adds sink new u (d.addFile t dir n mode) := by
  have hadd : Adds sink new u
      (d.addEntry t dir n (.file d.nextId #[]) (mode &&& fileModeMask)) :=
    h.addEntry isDir free isName (.inl hnew)
  exact { hadd with
    tree := hadd.tree.withNextId _
    nextId := Nat.le_succ_of_le hadd.nextId }

/-- A new entry that is no directory is changed. -/
theorem update (h : Adds sink new u d) (free : u.get? l = none) (hnew : new l) {f : Entry → Entry}
    (hkind : ∀ e, d.get? l = some e → (f e).node.kind = e.node.kind)
    (hmode : ∀ e, (f e).mode = e.mode) : Adds sink new u (d.update l f) := by
  have hdir : ∀ {m}, d.IsDir m → (d.update l f).IsDir m := by
    intro m hm
    obtain ⟨e, he, hnode⟩ := isDir_iff.1 hm
    rw [isDir_iff, get?_update, he]
    split
    · next heq =>
      subst heq
      exact ⟨f e, rfl, kind_eq_directory_iff.1 ((hkind e he).trans (by rw [hnode]; rfl))⟩
    · exact ⟨e, rfl, hnode⟩
  refine ⟨h.tree.update hkind, hdir h.working, h.workingDirectory, h.nextId, fun m old hm => ?_,
    fun m e hm he => ?_⟩
  · rw [get?_update, if_neg (by rintro rfl; rw [free] at hm; cases hm)]
    exact h.kept m old hm
  · by_cases hml : m = l
    · exact .inl (hml ▸ hnew)
    · rw [get?_update, if_neg hml] at he
      refine (h.added m e hm he).imp_right ?_
      rintro ⟨hnode, dir, n, above, rfl, habove, hbits⟩
      refine ⟨hnode, dir, n, if dir = l then f above else above, rfl, ?_, ?_⟩
      · rw [get?_update, habove]
        split <;> rfl
      · split
        · rw [hmode, hbits]
        · exact hbits

theorem store (h : Adds sink new u d) {f : OpenFile} (free : u.get? f.location = none)
    (hnew : new f.location) (bytes : Bytes) : Adds sink new u (d.store t f bytes) := by
  refine h.update free hnew (fun e _ => ?_) fun e => ?_ <;> cases hnode : e.node with
  | directory => simp [hnode]
  | symlink => simp [hnode]
  | file id old => simp only; split <;> simp [hnode, Node.kind]

theorem setTimesAt (h : Adds sink new u d) (free : u.get? l = none) (hnew : new l) (t : Time) :
    Adds sink new u (d.setTimesAt l t) := h.update free hnew (fun _ _ => rfl) fun _ => rfl

/-- Events are written to the log. -/
theorem log (h : Adds sink new u d) {path : Path} {f : OpenFile} (hsink : sink = .file path f)
    (bytes : Bytes) : Adds sink new u (d.append t f bytes) := by
  refine h.step ⟨h.tree.store, h.working.store, rfl, Nat.le_refl _, fun l old => kept_append hsink,
    fun l e hl he => ?_⟩
  rw [append, get?_store_eq_none_iff.2 hl] at he
  cases he

/-! ## Actions -/

theorem write {env : Environment} (hsink : env.sink = sink) {e : Event} :
    Always (ε := ε) (Adds sink new u) (env.write e) fun _ => True :=
  Always.write fun _ _ hf _ _ bytes h => h.log (hsink ▸ hf) bytes

theorem makeDirectories {mode : Mode} (hnew : (∀ l, new l) ∨ mode = Tree.directoryMode) :
    Always (Adds sink new u) (Tree.makeDirectories p mode) fun _ => True := by
  refine Always.of_disk fun w h => ?_
  refine Tree.makeDirectoriesAlong_keeps (I := fun w => Adds sink new u w.disk) (fun q _ w h => ?_)
    w h
  rw [Action.run_change]
  cases hmake : w.disk.makeDirectory (Action.time w) q mode with
  | error fault => exact h
  | ok d =>
    obtain ⟨dir, n, made⟩ := made_of_makeDirectory (h.sound q) hmake
    exact made.eq ▸ h.addEntry made.isDir made.free made.isName
      (hnew.imp (fun hall => hall _) fun hmode => ⟨rfl, by rw [hmode]⟩)

theorem makeDirectory : Always (Adds sink new u) (Tree.makeDirectory p) fun _ => True :=
  (makeDirectories (.inr rfl)).named _ _

theorem makeParent : Always (Adds sink new u) (Tree.makeParent p) fun _ => True := by
  unfold Tree.makeParent
  split
  · exact makeDirectory
  · exact Always.pure trivial

end Adds

end Disk

end TwinTrees
