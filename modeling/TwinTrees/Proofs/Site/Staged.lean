import TwinTrees.Proofs.Site.Sided

/-!
# Staging the left side of a test

While a test makes, links, changes and removes entries of its left side only, its disk stays
`Staged`: nothing is on the right side, the links of the left side lead back into it, and every
entry has the bits that a test gives to an entry of its kind. One lemma for each request says so, for
paths that lead into the left side.
-/

namespace TwinTrees

namespace Site

variable {s : Site} {mode : Mode} {d d' : Disk} {l dir : Location} {n : Name} {p q : Path}
  {now : Time}

/-- A disk while the left side is being staged (see the module docstring). -/
structure Staged (s : Site) (mode : Mode) (d : Disk) : Prop extends s.Standing d where
  absolute : s.runRoot.isAbsolute = true
  handsDown : HandsDown mode
  closed : s.Closed .lhs d
  modes : ∀ l e, s.Inside l → d.get? l = some e → e.mode = madeMode mode e.node.kind
  vacant : ∀ l, s.On .rhs l → l ≠ s.side .rhs → d.node? l = none

namespace Staged

/-! ## Changes -/

theorem addEntry (h : s.Staged mode d) {node : Node} (on : s.On .lhs dir) (isDir : d.IsDir dir)
    (free : d.node? (dir ++ [n]) = none) (isName : IsName n)
    (link : ∀ target, node = .symlink target → s.LeadsTo .lhs target) :
    s.Staged mode (d.addEntry now dir n node (madeMode mode node.kind)) where
  toStanding := (h.toStanding.addEntry on.inside isDir free isName fun target ht =>
    (link target ht).leads).standing
  absolute := h.absolute
  handsDown := h.handsDown
  closed l target hl htarget := by
    rw [Disk.node?_addEntry] at htarget
    split at htarget
    · cases htarget; exact link target rfl
    · exact h.closed l target hl htarget
  modes l e hl he := by
    rw [Disk.get?_addEntry] at he
    split at he
    · cases he; rfl
    · split at he
      · obtain ⟨e', he', rfl⟩ := Option.map_eq_some_iff.1 he
        exact h.modes l e' hl he'
      · exact h.modes l e hl he
  vacant l hl hne := by
    rw [Disk.node?_addEntry, if_neg, h.vacant l hl hne]
    rintro rfl
    exact absurd (hl.eq (on.append [n])) nofun

theorem withNextId (h : s.Staged mode d) (i : Nat) : s.Staged mode { d with nextId := i } :=
  ⟨h.toStanding.withNextId i, h.absolute, h.handsDown, h.closed, h.modes, h.vacant⟩

theorem addFile (h : s.Staged mode d) (on : s.On .lhs dir) (isDir : d.IsDir dir)
    (free : d.node? (dir ++ [n]) = none) (isName : IsName n) :
    s.Staged mode (d.addFile now dir n Tree.fileMode) :=
  have hadd : s.Staged mode (d.addEntry now dir n (.file d.nextId #[]) Tree.fileMode) :=
    h.addEntry on isDir free isName nofun
  hadd.withNextId _

theorem update (h : s.Staged mode d) (on : s.On .lhs l) {f : Entry → Entry}
    (node : Standing.KeepsNode f) (bits : ∀ e, (f e).mode = e.mode) :
    s.Staged mode (d.update l f) where
  toStanding := (h.toStanding.update on.inside node).standing
  absolute := h.absolute
  handsDown := h.handsDown
  closed m target hm htarget := h.closed m target hm (Standing.symlink_of_update node htarget)
  modes m e hm he := by
    rw [Disk.get?_update] at he
    split at he
    · obtain ⟨e', he', rfl⟩ := Option.map_eq_some_iff.1 he
      have hkind : (f e').node.kind = e'.node.kind := by
        obtain hnode | ⟨id, old, new, hold, hnew⟩ := node e'
        · rw [hnode]
        · rw [hold, hnew]; rfl
      rw [bits, hkind]
      exact h.modes m e' hm he'
    · exact h.modes m e hm he
  vacant m hm hne := by
    rw [Disk.node?, Disk.get?_update, if_neg, ← Disk.node?, h.vacant m hm hne]
    rintro rfl
    exact absurd (hm.eq on) (by decide)

theorem store (h : s.Staged mode d) {f : OpenFile} (on : s.On .lhs f.location) (bytes : Bytes) :
    s.Staged mode (d.store now f bytes) := by
  refine h.update on (.store f now bytes) fun e => ?_
  split
  · split <;> rfl
  · rfl

theorem setTimesAt (h : s.Staged mode d) (on : s.On .lhs l) (t : Time) :
    s.Staged mode (d.setTimesAt l t) := h.update on (fun _ => .inl rfl) fun _ => rfl

theorem removeEntry (h : s.Staged mode d) (on : s.On .lhs dir)
    (hleaf : ∀ m, d.node? (dir ++ [n] ++ [m]) = none) :
    s.Staged mode (d.removeEntry now dir n) where
  toStanding := (h.toStanding.removeEntry on.inside hleaf).standing
  absolute := h.absolute
  handsDown := h.handsDown
  closed l target hl htarget := by
    rw [Disk.node?_removeEntry] at htarget
    split at htarget
    · cases htarget
    · exact h.closed l target hl htarget
  modes l e hl he := by
    rw [Disk.get?_removeEntry] at he
    split at he
    · cases he
    · split at he
      · obtain ⟨e', he', rfl⟩ := Option.map_eq_some_iff.1 he
        exact h.modes l e' hl he'
      · exact h.modes l e hl he
  vacant l hl hne := by
    rw [Disk.node?_removeEntry]
    split
    · rfl
    · exact h.vacant l hl hne

theorem writeLog (h : s.Staged mode d) {f : OpenFile} (hf : f.location = s.log) {bytes : Bytes} :
    s.Staged mode (d.append now f bytes) where
  toStanding := h.toStanding.writeLog hf
  absolute := h.absolute
  handsDown := h.handsDown
  closed l target hl := by
    rw [Disk.node?, get?_writeLog hf hl.inside]
    exact h.closed l target hl
  modes l e hl := by
    rw [get?_writeLog hf hl]
    exact h.modes l e hl
  vacant l hl hne := by
    rw [Disk.node?, get?_writeLog hf hl.inside]
    exact h.vacant l hl hne

/-! ## Requests along paths into the left side -/

/-- A new directory has the bits of those on the sides. -/
theorem directoryMode (h : s.Staged mode d) (on : s.On .lhs dir) (isDir : d.IsDir dir) :
    d.directoryMode dir Tree.directoryMode = mode := by
  obtain ⟨e, he, hnode⟩ := Disk.isDir_iff.1 isDir
  refine Disk.directoryMode_of_handsDown h.handsDown he ?_
  rw [h.modes _ _ on.inside he, hnode]
  rfl

theorem makeDirectory (h : s.Staged mode d) (hp : s.LeadsTo .lhs p)
    (hmake : d.makeDirectory now p Tree.directoryMode = .ok d') : s.Staged mode d' := by
  obtain ⟨dir, n, free, rfl⟩ := Disk.of_makeDirectory hmake
  obtain ⟨on, isDir, isName⟩ := h.free_on h.closed hp free
  rw [h.directoryMode on isDir]
  exact h.addEntry on isDir free.free isName nofun

theorem makeLink (h : s.Staged mode d) (hp : s.LeadsTo .lhs p) (hq : s.LeadsTo .lhs q)
    (hmake : d.makeLink now q p = .ok d') : s.Staged mode d' := by
  obtain ⟨dir, n, free, rfl⟩ := Disk.of_makeLink hmake
  obtain ⟨on, isDir, isName⟩ := h.free_on h.closed hp free
  exact h.addEntry on isDir free.free isName fun target ht => by cases ht; exact hq

theorem createNew (h : s.Staged mode d) (hp : s.LeadsTo .lhs p) {f : OpenFile}
    (hmake : d.createNew now p Tree.fileMode = .ok (f, d')) :
    s.Staged mode d' ∧ s.On .lhs f.location := by
  obtain ⟨dir, n, free, rfl, rfl⟩ := Disk.of_createNew hmake
  obtain ⟨on, isDir, isName⟩ := h.free_on h.closed hp free
  exact ⟨h.addFile on isDir free.free isName, on.append [n]⟩

theorem openExisting (h : s.Staged mode d) (hp : s.LeadsTo .lhs p) {f : OpenFile}
    (hopen : d.openExisting p = .ok f) : s.On .lhs f.location := by
  obtain ⟨e, bytes, hfind, -⟩ := Disk.of_openExisting hopen
  exact h.find_on h.closed hp hfind

/-- What is removed along a path that leads on from the left side is in a directory on it. -/
theorem on_of_enters (h : s.Staged mode d) (hp : s.LeadsTo .lhs p) (enters : s.Enters p)
    {slash : Bool} (htarget : d.target .keep p = .ok (.name dir n slash)) : s.On .lhs dir := by
  have hon : s.On .lhs (dir ++ [n]) := h.target_on h.closed hp htarget
  refine hon.of_append_singleton.resolve_right fun hside => ?_
  obtain ⟨rfl, -⟩ := List.append_inj' hside rfl
  exact (h.target_enters enters htarget).ne_root rfl

theorem removeFile (h : s.Staged mode d) (hp : s.LeadsTo .lhs p) (enters : s.Enters p)
    (hremove : d.removeFile now p = .ok d') : s.Staged mode d' := by
  obtain ⟨dir, n, slash, htarget, hnot, rfl⟩ := Disk.of_removeFile hremove
  exact h.removeEntry (h.on_of_enters hp enters htarget) (h.node?_below hnot)

theorem removeDirectory (h : s.Staged mode d) (hp : s.LeadsTo .lhs p) (enters : s.Enters p)
    (hremove : d.removeDirectory now p = .ok d') : s.Staged mode d' := by
  obtain ⟨dir, n, slash, htarget, hnil, rfl⟩ := Disk.of_removeDirectory hremove
  exact h.removeEntry (h.on_of_enters hp enters htarget) (Disk.names_eq_nil_iff.1 hnil)

end Staged

end Site

end TwinTrees
