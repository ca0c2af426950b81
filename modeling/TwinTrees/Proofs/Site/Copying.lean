import TwinTrees.Proofs.Site.Marks
import TwinTrees.Proofs.Site.Staged
import TwinTrees.Tree.Copy

/-!
# Copying the left side of a test to the right

While the left side is copied, the disk is `Copying`: the left side is as it was, the names that are
done look the same on both sides, and nothing else is on the right side. A directory is done before
what is in it, and what is done on the right side are directories wherever the copy goes on; so no
path to a copy goes through a link, though links are among the copies. What is below a directory is
done when each of its names is, as they are all its names (`copyLevels`).
-/

namespace TwinTrees

namespace Site

open TwinTrees.Action (Triple)

variable {s : Site} {mode : Mode} {u d d' : Disk} {done done' : Location → Prop}
  {more m l : Location} {n : Name} {e : Entry} {target source : Path}

/-- A disk while the left side of the disk `u` is being copied (see the module docstring). -/
structure Copying (s : Site) (u : Disk) (done : Location → Prop) (d : Disk) : Prop
    extends s.Standing d where
  left : ∀ l, s.On .lhs l → d.get? l = u.get? l
  same : ∀ m, done m → (d.get? (s.side .rhs ++ m)).map (Entry.shown false) =
    (u.get? (s.side .lhs ++ m)).map (Entry.shown false)
  fresh : ∀ m, ¬ done m → d.node? (s.side .rhs ++ m) = none

/-- The names that are done once these are done as well. -/
def Also (done : Location → Prop) (more : Location) : Location → Prop := fun m => done m ∨ m = more

/-- The names that are done once all names below are done as well. -/
def AlsoBelow (done : Location → Prop) (more : Location) : Location → Prop :=
  fun m => done m ∨ more <+: m

namespace Copying

/-- Before anything is copied, there is nothing but the right side itself. -/
theorem start (h : s.Staged mode u) : s.Copying u (· = []) u where
  toStanding := h.toStanding
  left _ _ := rfl
  same m hm := by
    obtain ⟨el, hl, hnl⟩ := Disk.isDir_iff.1 (h.sides .lhs)
    obtain ⟨er, hr, hnr⟩ := Disk.isDir_iff.1 (h.sides .rhs)
    have hmode : er.mode = el.mode := by
      rw [h.modes _ _ (inside_side .rhs) hr, h.modes _ _ (inside_side .lhs) hl, hnl, hnr]
    rw [hm, List.append_nil, List.append_nil, hl, hr, Option.map_some, Option.map_some]
    unfold Entry.shown
    rw [hnl, hnr, hmode]
    rfl
  fresh m hm := h.vacant _ ((On.self s .rhs).append m) fun heq => hm (by simpa using heq)

/-- Names of which there is no entry are done. -/
theorem widen (h : s.Copying u done d) (hsub : ∀ m, done m → done' m)
    (hnew : ∀ m, done' m → ¬ done m → u.node? (s.side .lhs ++ m) = none) : s.Copying u done' d where
  toStanding := h.toStanding
  left := h.left
  same m hm := by
    by_cases hdone : done m
    · exact h.same m hdone
    · rw [Disk.node?_eq_none_iff.1 (h.fresh m hdone), Disk.node?_eq_none_iff.1 (hnew m hm hdone)]
  fresh m hm := h.fresh m fun hdone => hm (hsub m hdone)

theorem congr (h : s.Copying u done d) (hiff : ∀ m, done m ↔ done' m) : s.Copying u done' d :=
  h.widen (fun m => (hiff m).1) fun m hm hnot => absurd ((hiff m).2 hm) hnot

/-- The copy of an entry has been made. -/
theorem extend (h : s.Copying u done d) (standing : s.Standing d')
    (left : ∀ l, s.On .lhs l → d'.get? l = d.get? l)
    (right : ∀ m, m ≠ more → (d'.get? (s.side .rhs ++ m)).map (Entry.shown false) =
      (d.get? (s.side .rhs ++ m)).map (Entry.shown false))
    (copy : (d'.get? (s.side .rhs ++ more)).map (Entry.shown false) =
      (u.get? (s.side .lhs ++ more)).map (Entry.shown false)) : s.Copying u (Also done more) d' where
  toStanding := standing
  left l hl := (left l hl).trans (h.left l hl)
  same m hm := by
    by_cases heq : m = more
    · rw [heq, copy]
    · rw [right m heq, h.same m (hm.resolve_right heq)]
  fresh m hm := by
    have hfresh := h.fresh m fun hdone => hm (.inl hdone)
    rw [Disk.node?_eq_none_iff] at hfresh ⊢
    have hright := right m fun heq => hm (.inr heq)
    rwa [hfresh, Option.map_none, Option.map_eq_none_iff] at hright

theorem right_of_left (h : s.Copying u done d) (hm : done m)
    (hget : u.get? (s.side .lhs ++ m) = some e) :
    ∃ e', d.get? (s.side .rhs ++ m) = some e' ∧ e'.shown false = e.shown false := by
  have hsame := h.same m hm
  rw [hget, Option.map_some, Option.map_eq_some_iff] at hsame
  exact hsame

/-- The copy of a directory is one. -/
theorem isDir (h : s.Copying u done d) (hm : done m) (isDir : u.IsDir (s.side .lhs ++ m)) :
    d.IsDir (s.side .rhs ++ m) := by
  obtain ⟨e, he, hnode⟩ := Disk.isDir_iff.1 isDir
  obtain ⟨e', he', hshown⟩ := h.right_of_left hm he
  refine Disk.isDir_of_get? he' (Disk.kind_eq_directory_iff.1 ?_)
  rw [Entry.kind_eq hshown, hnode]
  rfl

/-- An entry is added as the copy of one. -/
theorem addEntry (h : s.Copying u done d) {t : Time} {node : Node} {bits : Mode}
    (hu : u.get? (s.side .lhs ++ (more ++ [n])) = some e) (isDir : d.IsDir (s.side .rhs ++ more))
    (hfresh : ¬ done (more ++ [n])) (isName : IsName n) (hnode : node = e.node)
    (hbits : bits = e.mode) (link : ∀ old, node = .symlink old → s.Leads old) :
    s.Copying u (Also done (more ++ [n])) (d.addEntry t (s.side .rhs ++ more) n node bits) := by
  have hin : s.Inside (s.side .rhs ++ more) := (inside_side .rhs).append more
  have free := h.fresh _ hfresh
  rw [← List.append_assoc] at free
  refine h.extend (h.toStanding.addEntry hin isDir free isName link).standing (fun l hl => ?_)
    (fun m hm => ?_) ?_
  · have hne : ∀ m, l ≠ s.side .rhs ++ m := by
      rintro m rfl
      exact absurd (hl.eq ((On.self s .rhs).append m)) nofun
    rw [Disk.get?_addEntry, if_neg (List.append_assoc _ more [n] ▸ hne _), if_neg (hne _)]
  · rw [Disk.get?_addEntry, if_neg fun heq => hm (by simpa using heq)]
    split
    · cases d.get? (s.side .rhs ++ m) <;> rfl
    · rfl
  · rw [Disk.get?_addEntry, if_pos (List.append_assoc ..).symm, hu, hnode, hbits]
    rfl

/-- A file is added as the copy of one, and written. -/
theorem addFile (h : s.Copying u done d) {t t' : Time} {id : Nat} {bytes : Bytes}
    (hu : u.get? (s.side .lhs ++ (more ++ [n])) = some e) (isDir : d.IsDir (s.side .rhs ++ more))
    (hfresh : ¬ done (more ++ [n])) (isName : IsName n) (hnode : e.node = .file id bytes)
    (hbits : e.mode = Tree.fileMode) :
    s.Copying u (Also done (more ++ [n]))
      ((d.addFile t (s.side .rhs ++ more) n Tree.fileMode).append t'
        ⟨s.side .rhs ++ more ++ [n], d.nextId⟩ bytes) := by
  have hin : s.Inside (s.side .rhs ++ more) := (inside_side .rhs).append more
  have free := h.fresh _ hfresh
  rw [← List.append_assoc] at free
  have standing : s.Standing (d.addFile t (s.side .rhs ++ more) n Tree.fileMode) :=
    (h.toStanding.addFile hin isDir free isName).standing
  refine h.extend (standing.store (hin.append [n]) _).standing (fun l hl => ?_)
    (fun m hm => ?_) ?_
  · have hne : ∀ m, l ≠ s.side .rhs ++ m := by
      rintro m rfl
      exact absurd (hl.eq ((On.self s .rhs).append m)) nofun
    have hne' := hne (more ++ [n])
    rw [← List.append_assoc] at hne'
    rw [Disk.get?_append_addFile, if_neg hne']
    refine (Disk.get?_addEntry ..).trans ?_
    rw [if_neg hne', if_neg (hne _)]
  · have hne : s.side .rhs ++ m ≠ s.side .rhs ++ more ++ [n] := fun heq => hm (by simpa using heq)
    rw [Disk.get?_append_addFile, if_neg hne]
    refine (congrArg _ (Disk.get?_addEntry ..)).trans ?_
    rw [if_neg hne]
    split
    · cases d.get? (s.side .rhs ++ m) <;> rfl
    · rfl
  · rw [Disk.get?_append_addFile, if_pos (List.append_assoc ..).symm, hu, Option.map_some,
      Option.map_some]
    unfold Entry.shown
    rw [hnode, hbits]
    rfl

/-! ## Copying one entry -/

theorem get?_left (h : s.Copying u done d) (m : Location) :
    d.get? (s.side .lhs ++ m) = u.get? (s.side .lhs ++ m) := h.left _ ((On.self s .lhs).append m)

theorem node?_left (h : s.Copying u done d) (m : Location) :
    d.node? (s.side .lhs ++ m) = u.node? (s.side .lhs ++ m) := by
  rw [Disk.node?, h.get?_left, Disk.node?]

section Entry

variable (hu : s.Staged mode u) (ht : s.Marks .rhs more target) (hs : s.Marks .lhs more source)
  (hget : u.get? (s.side .lhs ++ (more ++ [n])) = some e) (parent : done more)
  (fresh : ¬ done (more ++ [n]))
include hu hget

theorem isDir_and_isName : u.IsDir (s.side .lhs ++ more) ∧ IsName n := by
  have there : u.node? (s.side .lhs ++ more ++ [n]) ≠ none := by
    rw [List.append_assoc, Disk.node?_of_get? hget]
    nofun
  exact ⟨hu.tree.parent there, hu.tree.named there⟩

include ht parent

/-- The directory that a copy is to be in is there. -/
theorem makeParent : Triple (s.Copying u done) (Tree.makeParent (Tree.inside target n))
    fun _ => s.Copying u done := by
  obtain ⟨isDirLeft, isName⟩ := isDir_and_isName hu hget
  unfold Tree.makeParent
  cases habove : (Tree.inside target n).parent? with
  | none => exact Triple.pure fun _ => id
  | some above =>
    refine Triple.named (((ht.inside isName).parent habove).makeDirectories_there fun d h =>
      ⟨h.toFound, ?_⟩) _ _
    rw [show d.node? _ = _ from h.isDir parent isDirLeft]
    nofun

include fresh

theorem copyDirectory (hnode : e.node = .directory) :
    Triple (s.Copying u done) (Tree.copyDirectory (Tree.inside target n) e.mode)
      fun _ => s.Copying u (Also done (more ++ [n])) := by
  obtain ⟨isDirLeft, isName⟩ := isDir_and_isName hu hget
  obtain ⟨el, hel, hnl⟩ := Disk.isDir_iff.1 isDirLeft
  have hmode : ∀ {l e}, s.On .lhs l → u.get? l = some e → e.node = .directory → e.mode = mode := by
    intro l e hl he hdir
    rw [hu.modes l e hl.inside he, hdir]
    rfl
  have hbits : e.mode = mode := hmode ((On.self s .lhs).append _) hget hnode
  refine Triple.named ((ht.inside isName).makeDirectories_free (fun d h =>
    ⟨h.toFound, h.isDir parent isDirLeft, h.fresh _ fresh⟩) fun t d h => ?_) _ _
  refine h.addEntry hget (h.isDir parent isDirLeft) fresh isName hnode.symm ?_ nofun
  obtain ⟨er, her, hshown⟩ := h.right_of_left parent hel
  rw [hbits]
  exact Disk.directoryMode_copy hu.handsDown her
    ((Entry.mode_shown hshown).trans (hmode ((On.self s .lhs).append _) hel hnl))

theorem makeLink {old : Path} (hnode : e.node = .symlink old) :
    Triple (s.Copying u done)
      (Action.change fun t d => d.makeLink t old (Tree.inside target n) : Action IoError Unit)
      fun _ => s.Copying u (Also done (more ++ [n])) := by
  obtain ⟨isDirLeft, isName⟩ := isDir_and_isName hu hget
  refine Triple.change fun t d d' h hmake => ?_
  obtain ⟨dir, m, free, rfl⟩ := Disk.of_makeLink hmake
  obtain ⟨slash, htarget⟩ := free.target
  have isDir := h.isDir parent isDirLeft
  cases (ht.inside isName).target_eq_of_free h.toFound isDir (h.fresh _ fresh) htarget
  have hon : s.On .lhs (s.side .lhs ++ (more ++ [n])) := (On.self s .lhs).append _
  refine h.addEntry hget isDir fresh isName hnode.symm ?_ fun old' hold => ?_
  · rw [hu.modes _ _ hon.inside hget, hnode]
    rfl
  · cases hold
    exact (hu.closed _ _ hon (by rw [Disk.node?_of_get? hget, hnode])).leads

include hs

theorem copyFile {id : Nat} {bytes : Bytes} (hnode : e.node = .file id bytes) :
    Triple (s.Copying u done)
      (Tree.copyFile (Tree.inside target n) (Tree.inside source n) bytes.size)
      fun _ => s.Copying u (Also done (more ++ [n])) := by
  obtain ⟨isDirLeft, isName⟩ := isDir_and_isName hu hget
  have hon : s.On .lhs (s.side .lhs ++ (more ++ [n])) := (On.self s .lhs).append _
  have hbits : e.mode = Tree.fileMode := by
    rw [hu.modes _ _ hon.inside hget, hnode]
    rfl
  have hfile : u.node? (s.side .lhs ++ (more ++ [n])) = some (.file id bytes) := by
    rw [Disk.node?_of_get? hget, hnode]
  unfold Tree.copyFile
  refine Triple.bind (Q := fun input d => input = ⟨s.side .lhs ++ (more ++ [n]), id⟩ ∧
    s.Copying u done d) (Triple.named (Triple.ask fun d input h hopen => ?_) _ _) fun input => ?_
  · obtain ⟨e', bytes', hfind, hnode'⟩ := Disk.of_openExisting hopen
    obtain ⟨hloc, hget'⟩ := (hs.inside isName).get?_of_find h.toFound
      (by rw [h.node?_left, hfile]; nofun) (.inr (by rw [h.node?_left, hfile]; nofun)) hfind
    rw [h.get?_left, hget] at hget'
    cases hget'
    rw [hnode] at hnode'
    cases hnode'
    exact ⟨by rw [← hloc], h⟩
  refine Triple.given (fun _ h => h.1) ?_
  rintro rfl
  -- the copy is open and empty; what it is a copy of has been left alone
  refine Triple.bind (Q := fun copy d' => ∃ d t, s.Copying u done d ∧
    copy = ⟨s.side .rhs ++ more ++ [n], d.nextId⟩ ∧
    d' = d.addFile t (s.side .rhs ++ more) n Tree.fileMode)
    (Triple.named (Triple.request fun t d copy d' h hopen => ?_) _ _) fun copy => ?_
  · have isDir := h.2.isDir parent isDirLeft
    have hfree := h.2.fresh _ fresh
    obtain ⟨dir, m, htarget, hloc, hcase⟩ := Disk.of_openOrCreate hopen
    obtain ⟨rfl, rfl, -⟩ := Target.name.inj
      ((ht.inside isName).target_eq_of_free h.2.toFound isDir hfree htarget)
    obtain ⟨-, hid, rfl⟩ | ⟨old, hold, -⟩ := hcase
    · exact ⟨d, t, h.2, by rw [← hloc, ← hid], rfl⟩
    · rw [List.append_assoc, hfree] at hold
      cases hold
  refine Triple.bind (Q := fun read d' => read = bytes ∧ ∃ d t, s.Copying u done d ∧
    copy = ⟨s.side .rhs ++ more ++ [n], d.nextId⟩ ∧
    d' = d.addFile t (s.side .rhs ++ more) n Tree.fileMode) (Triple.ask ?_) fun read => ?_
  · rintro d' read ⟨d, t, h, hcopy, rfl⟩ hread
    cases hread
    refine ⟨Disk.Holds.load ?_, d, t, h, hcopy, rfl⟩
    refine (Disk.node?_addEntry).trans ?_
    have hne : s.side .lhs ++ (more ++ [n]) ≠ s.side .rhs ++ more ++ [n] := by
      intro heq
      have hright : s.On .rhs (s.side .rhs ++ more ++ [n]) :=
        ((On.self s .rhs).append more).append [n]
      rw [← heq] at hright
      exact absurd (hon.eq hright) nofun
    rw [if_neg hne, h.node?_left, hfile]
  refine Triple.given (fun _ h => h.1) ?_
  rintro rfl
  refine Triple.bind (Q := fun _ => s.Copying u (Also done (more ++ [n])))
    (Triple.change ?_) fun _ => ?_
  · rintro t' _ d'' ⟨-, d, t, h, rfl, rfl⟩ happend
    cases happend
    exact h.addFile hget (h.isDir parent isDirLeft) fresh isName hnode hbits
  · rw [if_neg (not_not_intro rfl)]
    exact Triple.pure fun _ h => h

/-- The copy of an entry in a directory of which there is a copy. -/
theorem copyEntry :
    Triple (s.Copying u done) (Tree.copyEntry (Tree.inside target n) (Tree.inside source n))
      fun _ => s.Copying u (Also done (more ++ [n])) := by
  obtain ⟨isDirLeft, isName⟩ := isDir_and_isName hu hget
  have hslash : (Tree.inside source n).endsInSlash = false :=
    Path.endsInSlash_join (by simpa using isName)
  unfold Tree.copyEntry
  refine Triple.bind (Q := fun x d => x.2 = e ∧ s.Copying u done d)
    (Triple.named (Triple.ask fun d x h hlook => ?_) _ _) fun x => Triple.given (fun _ h => h.1) ?_
  · obtain ⟨-, hget'⟩ := (hs.inside isName).get?_of_find h.toFound
      (Disk.node?_ne_none_of_eq ((h.node?_left _).trans (Disk.node?_of_get? hget)))
      (.inl ⟨rfl, hslash⟩) hlook
    rw [h.get?_left, hget] at hget'
    exact ⟨(Option.some.inj hget').symm, h⟩
  rintro hx
  simp only [hx]
  cases hnode : e.node with
  | directory => exact (copyDirectory hu ht hget parent fresh hnode).pre fun _ h => h.2
  | symlink old =>
    exact ((makeParent hu ht hget parent).pre fun _ h => h.2).bind fun _ =>
      Triple.named (makeLink hu ht hget parent fresh hnode) _ _
  | file id bytes =>
    exact ((makeParent hu ht hget parent).pre fun _ h => h.2).bind fun _ =>
      copyFile hu ht hs hget parent fresh hnode

end Entry

/-! ## Copying a tree -/

/-- The names that are done while so many entries of a directory are left to do. -/
def AllBut (done : Location → Prop) (more : Location) (rest : List (Name × Kind)) :
    Location → Prop :=
  fun m => done m ∨ more <+: m ∧ ∀ x ∈ rest, ¬ more ++ [x.1] <+: m

theorem allBut_self (done : Location → Prop) (more : Location) (rest : List (Name × Kind)) :
    AllBut done more rest more :=
  .inr ⟨List.prefix_rfl, fun x _ hx => absurd hx.length_le (by simp)⟩

theorem allBut_nil (m : Location) : AllBut done more [] m ↔ AlsoBelow done more m := by
  simp [AllBut, AlsoBelow]

/-- One entry less is left to do when it and all below it are done. -/
theorem alsoBelow_allBut {x : Name × Kind} {rest : List (Name × Kind)}
    (distinct : ((x :: rest).map Prod.fst).Nodup) (m : Location) :
    AlsoBelow (AllBut done more (x :: rest)) (more ++ [x.1]) m ↔ AllBut done more rest m := by
  constructor
  · rintro ((hm | ⟨hm, hrest⟩) | hm)
    · exact .inl hm
    · exact .inr ⟨hm, fun y hy => hrest y (List.mem_cons_of_mem x hy)⟩
    · refine .inr ⟨(List.prefix_append _ _).trans hm, fun y hy hym => ?_⟩
      have heq := (List.prefix_of_prefix_length_le hm hym (by simp)).eq_of_length (by simp)
      have hname : x.1 = y.1 := by simpa using heq
      exact (List.nodup_cons.1 distinct).1 (hname ▸ List.mem_map_of_mem hy)
  · rintro (hm | ⟨hm, hrest⟩)
    · exact .inl (.inl hm)
    · by_cases hx : more ++ [x.1] <+: m
      · exact .inr hx
      · exact .inl (.inr ⟨hm, List.forall_mem_cons.2 ⟨hx, hrest⟩⟩)

/-- Once a directory is done and its entries are known, all but these are done. -/
theorem enter (h : s.Copying u (Also done more) d) (tree : u.IsTree)
    {names : List (Name × Kind)} (lists : u.Lists (s.side .lhs ++ more) names) :
    s.Copying u (AllBut done more names) d := by
  refine h.widen (fun m hm => ?_) fun m hm hnot => ?_
  · obtain hm | rfl := hm
    · exact .inl hm
    · exact allBut_self ..
  · obtain ⟨⟨onward, rfl⟩, hnames⟩ := hm.resolve_left fun hm => hnot (.inl hm)
    cases onward with
    | nil => exact absurd (.inr (List.append_nil more)) hnot
    | cons k onward =>
      by_contra hnode
      have hbelow : u.node? (s.side .lhs ++ more ++ [k] ++ onward) ≠ none := by simpa using hnode
      have hchild := tree.node?_ne_none_of_append hbelow
      obtain ⟨node, hnode⟩ := Option.ne_none_iff_exists'.1 hchild
      exact hnames (k, node.kind) ((lists.mem_iff _ _).2 (by rw [hnode]; rfl)) (by simp)

/-- With an entry that is no directory, all below it is done. -/
theorem leaf (h : s.Copying u (Also done more) d) (tree : u.IsTree)
    (hleaf : ¬ u.IsDir (s.side .lhs ++ more)) : s.Copying u (AlsoBelow done more) d := by
  refine h.widen (fun m hm => ?_) fun m hm hnot => ?_
  · obtain hm | rfl := hm
    · exact .inl hm
    · exact .inr List.prefix_rfl
  · have hprefix := hm.resolve_left fun hm => hnot (.inl hm)
    refine tree.node?_eq_none_of_prefix ((List.prefix_append_right_inj _).2 hprefix) ?_ hleaf
    intro heq
    exact hnot (.inr (List.append_cancel_left heq).symm)

theorem isDir_side (hu : s.Staged mode u) : u.IsDir (s.side .lhs ++ []) := by
  rw [List.append_nil]
  exact hu.sides .lhs

theorem lookAt_side (hu : s.Staged mode u) (hs : s.Marks .lhs [] source) :
    Triple (s.Copying u done) (Action.ask fun d => d.lookAt source : Action IoError _)
      fun x d => x.2.node = .directory ∧ s.Copying u done d := by
  refine Triple.ask fun d x h hlook => ?_
  have isDir : d.IsDir (s.side .lhs ++ []) := (h.node?_left _).trans (isDir_side hu)
  obtain ⟨-, hget⟩ := hs.get?_of_find h.toFound (Disk.node?_ne_none_of_eq isDir)
    (.inr isDir.ne_symlink) hlook
  have hnode : some x.2.node = some .directory := (Disk.node?_of_get? hget).symm.trans isDir
  exact ⟨Option.some.inj hnode, h⟩

/-- The side itself is there already. -/
theorem copyRoot (hu : s.Staged mode u) (ht : s.Marks .rhs [] target)
    (hs : s.Marks .lhs [] source) (hdone : done []) :
    Triple (s.Copying u done) (Tree.copyEntry target source) fun _ => s.Copying u done := by
  unfold Tree.copyEntry
  refine (Triple.named (lookAt_side hu hs) _ _).bind fun x => Triple.given (fun _ h => h.1) ?_
  intro hnode
  simp only [hnode]
  refine Triple.named ((ht.makeDirectories_there fun d h => ⟨h.2.toFound, ?_⟩).post
    fun _ _ h => h.2) _ _
  rw [show d.node? _ = _ from h.2.isDir hdone (isDir_side hu)]
  nofun

/-- The copy of a directory with all that is in it. -/
theorem copyLevels (hu : s.Staged mode u) (root : Path) (depth : Nat)
    {copySelf : Action CommandError Unit} (ht : s.Marks .rhs more target)
    (hs : s.Marks .lhs more source) (isDir : u.IsDir (s.side .lhs ++ more))
    (fresh : ∀ m, more <+: m → m ≠ more → ¬ done m)
    (hself : Triple (s.Copying u done) copySelf fun _ => s.Copying u (Also done more)) :
    Triple (s.Copying u done) (Tree.copyLevels root depth target source copySelf)
      fun _ => s.Copying u (AlsoBelow done more) := by
  induction depth generalizing more target source copySelf done with
  | zero => exact hself.bind fun _ => Triple.throw _
  | succ depth ih =>
    rw [Tree.copyLevels]
    refine Triple.bind (Q := fun found d => (∀ names, found = .ok names →
      u.Lists (s.side .lhs ++ more) names) ∧ s.Copying u done d) (Triple.ask ?_)
      fun found => Triple.given (fun _ h => h.1) fun hlists => ?_
    · rintro d _ h ⟨⟩
      refine ⟨fun names hlist => ?_, h⟩
      refine (hs.lists h.toFound ((h.node?_left more).trans isDir) hlist).congr fun n => ?_
      rw [List.append_assoc, h.node?_left]
    refine (hself.pre fun _ h => h.2).bind fun _ => ?_
    cases found with
    | error fault => exact Triple.throw _
    | ok names =>
      have lists : u.Lists (s.side .lhs ++ more) (Tree.sortedNames names) :=
        (hlists names rfl).perm (List.mergeSort_perm ..)
      refine (Triple.forM (I := fun rest => s.Copying u (AllBut done more rest))
        fun x rest hrest => ?_).mono (fun d h => h.enter hu.tree lists)
        fun _ d h => h.congr allBut_nil
      obtain ⟨n, kind⟩ := x
      have distinct := lists.distinct.sublist (hrest.sublist.map Prod.fst)
      obtain ⟨node, hnode, hkind⟩ := Option.map_eq_some_iff.1
        ((lists.mem_iff n kind).1 (hrest.subset List.mem_cons_self))
      rw [List.append_assoc] at hnode
      obtain ⟨e, he, rfl⟩ := Disk.node?_eq_some_iff.1 hnode
      have isName := (isDir_and_isName hu he).2
      have hfresh : ∀ m, more ++ [n] <+: m → ¬ AllBut done more ((n, kind) :: rest) m := by
        rintro m hm (hdone | ⟨-, hleft⟩)
        · refine fresh m ((List.prefix_append _ _).trans hm) ?_ hdone
          rintro rfl
          exact absurd hm.length_le (by simp)
        · exact hleft _ List.mem_cons_self hm
      have hcopy := copyEntry hu ht hs he (allBut_self done more _) (hfresh _ List.prefix_rfl)
      simp only
      split
      · next hdir =>
        have hnode' := Disk.kind_eq_directory_iff.1 (hkind.trans hdir)
        exact (ih (ht.inside isName) (hs.inside isName) (Disk.isDir_of_get? he hnode')
          (fun m hm _ => hfresh m hm) hcopy).post fun _ d h => h.congr (alsoBelow_allBut distinct)
      · next hdir =>
        refine hcopy.post fun _ d h => (h.leaf hu.tree ?_).congr (alsoBelow_allBut distinct)
        rw [Disk.IsDir, hnode, Option.some.injEq, ← Disk.kind_eq_directory_iff, hkind]
        exact hdir

/-- The copy of the left side. -/
theorem copyTree (ht : s.Marks .rhs [] target) (hs : s.Marks .lhs [] source) :
    Triple (s.Staged mode) (Tree.copyTree target source)
      fun _ d => ∃ u, s.Staged mode u ∧ s.Copying u (fun _ => True) d := by
  intro w x w' hu hrun
  refine ⟨w.disk, hu, ?_⟩
  suffices h : Triple (s.Copying w.disk (· = [])) (Tree.copyTree target source)
      fun _ => s.Copying w.disk (AlsoBelow (· = []) []) from
    (h w x w' (.start hu) hrun).congr fun m => by simp [AlsoBelow]
  have ht' := ht.withSlash
  unfold Tree.copyTree
  refine (Triple.mapError (lookAt_side hu hs) _).bind fun x =>
    Triple.given (fun _ h => h.1) fun hnode => ?_
  have hkind : x.2.node.kind = .directory := by rw [hnode]; rfl
  simp only [hkind]
  refine Triple.bind (Q := fun e d => e = x.2 ∧ s.Copying w.disk (· = []) d)
    (Triple.pure fun d h => ⟨rfl, h.2⟩) fun e => Triple.given (fun _ h => h.1) ?_
  rintro rfl
  rw [if_pos hkind]
  have hroot : Triple (s.Copying w.disk (· = [])) (Tree.copyEntry (target.join ⟨""⟩) source)
      fun _ => s.Copying w.disk (· = []) := copyRoot hu ht' hs rfl
  refine (copyLevels hu source pathLimit ht' hs (isDir_side hu) (fun m _ hne => hne) ?_).pre fun _ h => h.2
  exact hroot.post fun _ _ h => h.congr fun m => by simp [Also]

end Copying

end Site

end TwinTrees
