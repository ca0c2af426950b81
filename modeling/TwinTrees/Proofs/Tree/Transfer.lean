import Mathlib.Data.Set.Insert
import TwinTrees.Proofs.Base.Making
import TwinTrees.Proofs.Disk.Extension
import TwinTrees.Proofs.Disk.Files
import TwinTrees.Proofs.Disk.Kind
import TwinTrees.Proofs.Disk.Resolving
import TwinTrees.Tree.Copy

/-!
# Copying entries to a place apart

A directory is copied to a place at which there is nothing or an empty directory (`Transfer`). While this
goes on, whether it ends well or not, what is at the place is of the kind of what is copied, and
everywhere else nothing has changed but that directories may have been made on the way to the place
(`Transfer.Started`). So no path to a copy goes through a link, although links are among the copies, and
what is copied stays as it was. Of the names that are done, the copies are exact (`Transfer.Copied`).
-/

namespace TwinTrees

open TwinTrees.Action (Always Leaves Triple)

/-- What may become of what is not at a place or below it while the place is made: nothing, but that
above the place directories are made where nothing was, the first of them in a directory that is
modified thereby. -/
inductive Disk.LeftAlone (place : Location) (u d : Disk) (l : Location) : Prop
  | same (eq : d.get? l = u.get? l)
  | made (above : l <+: place) (free : u.get? l = none) (isDir : d.IsDir l)
  | listed {e : Entry} {n : Name} (t : Time) (way : l ++ [n] <+: place) (before : u.get? l = some e)
      (isDir : e.node = .directory) (free : u.get? (l ++ [n]) = none)
      (after : d.get? l = some { e with modified := t })

/-- A directory is made on the way to the place. -/
theorem Disk.LeftAlone.addDirectory {place dir l : Location} {u d : Disk} {n : Name} {mode : Mode}
    {t : Time} (h : LeftAlone place u d l) (way : dir ++ [n] <+: place) (isDir : d.IsDir dir)
    (free : u.get? (dir ++ [n]) = none) :
    LeftAlone place u (d.addEntry t dir n .directory mode) l := by
  have hget := get?_addEntry d t dir n .directory mode l
  split at hget
  · next heq =>
    subst heq
    exact .made way free (isDir_of_get? hget rfl)
  · split at hget
    · next heq =>
      subst heq
      obtain ⟨e, he, hnode⟩ := isDir_iff.1 isDir
      obtain same | ⟨above, free', -⟩ | ⟨t', way', before, isDir', free', after⟩ := h
      · rw [he] at hget
        exact .listed t way (same ▸ he) hnode free hget
      · rw [he] at hget
        exact .made above free' (isDir_of_get? hget hnode)
      · rw [after] at hget
        exact .listed t way' before isDir' free' hget
    · obtain same | ⟨above, free', isDir'⟩ | ⟨t', way', before, isDir', free', after⟩ := h
      · exact .same (hget.trans same)
      · refine .made above free' ?_
        rw [IsDir, node?, hget]
        exact isDir'
      · exact .listed t' way' before isDir' free' (hget.trans after)

/-- A directory to be copied, and names that lead from another directory down to the place of the
copy. -/
structure Transfer where
  source : Base
  target : Base
  goal : Location

namespace Transfer

variable {c : Transfer} {u d d' : Disk} {done done' : Set Location} {above more m l : Location}
  {n : Name} {e : Entry} {node : Node} {mode : Mode} {t : Time} {f : OpenFile} {bytes : Bytes}
  {p target source : Path}

/-- Where the copy is to be. -/
def place (c : Transfer) : Location := c.target.location ++ c.goal

/-- A disk on which the copy can be started: no link is on the way to the place, there is nothing at it
but perhaps an empty directory, and neither the place nor the directory that is copied is in the
other. -/
structure Ready (c : Transfer) (u : Disk) : Prop where
  source : c.source.Stands u
  target : c.target.Stands u
  working : u.IsDir u.workingDirectory
  looked : ∃ e, u.lookAt c.source.path = .ok (c.source.location, e) ∧ e.node = .directory
  noLink : ∀ m, m <+: c.goal → m ≠ [] → ∀ old, u.node? (c.target.location ++ m) ≠ some (.symlink old)
  vacant : ∀ l, c.place <+: l → u.node? l = none ∨ l = c.place ∧ u.IsDir c.place
  notInside : ¬ c.source.location <+: c.place
  notAround : ¬ c.place <+: c.source.location

/-- A disk while the directory is copied, which has been started on the disk `u` (see the module
docstring). -/
structure Started (c : Transfer) (u d : Disk) : Prop where
  tree : d.IsTree
  workingDirectory : d.workingDirectory = u.workingDirectory
  aside : ∀ l, ¬ c.place <+: l → Disk.LeftAlone c.place u d l
  there : u.IsDir c.place → d.IsDir c.place
  kinds : ∀ m kind, d.kind? (c.place ++ m) = some kind →
    u.kind? (c.source.location ++ m) = some kind

/-- The names that are done have been copied. -/
structure Copied (c : Transfer) (u : Disk) (done : Set Location) (d : Disk) : Prop
    extends c.Started u d where
  same : ∀ m ∈ done, ∀ node, u.node? (c.source.location ++ m) = some node →
    ∃ node', d.node? (c.place ++ m) = some node' ∧ node'.shown = node.shown

theorem Ready.started (hu : c.Ready u) : c.Started u u where
  tree := hu.source.tree
  workingDirectory := rfl
  aside _ _ := .same rfl
  there := id
  kinds m kind hkind := by
    obtain hnone | ⟨hplace, isDir⟩ := hu.vacant (c.place ++ m) (List.prefix_append _ _)
    · rw [Disk.kind?_eq_none_iff.2 hnone] at hkind
      cases hkind
    · rw [hplace, Disk.kind?_eq_directory_iff.2 isDir] at hkind
      obtain rfl : m = [] := by simpa using hplace
      rw [List.append_nil, ← hkind]
      exact Disk.kind?_eq_directory_iff.2 hu.source.isDir

theorem Ready.copied (hu : c.Ready u) : c.Copied u ∅ u := ⟨hu.started, nofun⟩

/-- Neither what is copied nor what is in it is at the place, above it or below. -/
theorem Ready.apart (hu : c.Ready u) (m : Location) :
    ¬ c.place <+: c.source.location ++ m ∧ ¬ c.source.location ++ m <+: c.place := by
  refine ⟨fun h => ?_, fun h => hu.notInside ((List.prefix_append _ _).trans h)⟩
  exact (List.prefix_or_prefix_of_prefix h (List.prefix_append _ m)).elim hu.notAround hu.notInside

namespace Started

variable (hu : c.Ready u)
include hu

/-- What was there before is there. -/
theorem node?_of_some (h : c.Started u d) (hl : u.node? l = some node) : d.node? l = some node := by
  by_cases hplace : c.place <+: l
  · obtain hnone | ⟨rfl, isDir⟩ := hu.vacant l hplace
    · rw [hnone] at hl
      cases hl
    · cases hl.symm.trans isDir
      exact h.there isDir
  · obtain heq | ⟨-, free, -⟩ | ⟨t, -, before, isDir, -, after⟩ := h.aside l hplace
    · rw [Disk.node?, heq]
      exact hl
    · rw [Disk.node?_eq_none_iff.2 free] at hl
      cases hl
    · rw [Disk.node?_of_get? before] at hl
      rw [Disk.node?_of_get? after]
      exact hl

theorem persists (h : c.Started u d) : Disk.Persists u d :=
  ⟨fun _ node hl => ⟨node, h.node?_of_some hu hl, rfl, fun _ => rfl⟩, h.workingDirectory⟩

theorem source_stands (h : c.Started u d) : c.source.Stands d :=
  hu.source.mono h.tree h.workingDirectory fun hl _ => h.node?_of_some hu hl

theorem target_stands (h : c.Started u d) : c.target.Stands d :=
  hu.target.mono h.tree h.workingDirectory fun hl _ => h.node?_of_some hu hl

theorem working (h : c.Started u d) : d.IsDir d.workingDirectory := by
  rw [h.workingDirectory]
  exact h.node?_of_some hu hu.working

/-- What is copied is as it was. -/
theorem get?_source (h : c.Started u d) (m : Location) :
    d.get? (c.source.location ++ m) = u.get? (c.source.location ++ m) := by
  obtain ⟨notBelow, notAbove⟩ := hu.apart m
  obtain heq | ⟨above, -, -⟩ | ⟨t, way, -, -, -, -⟩ := h.aside _ notBelow
  · exact heq
  · exact absurd above notAbove
  · exact absurd ((List.prefix_append _ _).trans way) notAbove

theorem node?_source (h : c.Started u d) (m : Location) :
    d.node? (c.source.location ++ m) = u.node? (c.source.location ++ m) := by
  rw [Disk.node?, h.get?_source hu, Disk.node?]

/-- No link is on the way to the place, nor at or below it where there is none in what is copied. -/
theorem noLink (h : c.Started u d) (hl : l <+: c.goal ++ m) (hne : l ≠ [])
    (source : ∀ k, k <+: m → l = c.goal ++ k → u.kind? (c.source.location ++ k) ≠ some .symlink)
    (old : Path) : d.node? (c.target.location ++ l) ≠ some (.symlink old) := by
  intro hold
  obtain hgoal | ⟨k, rfl⟩ := List.prefix_or_prefix_of_prefix hl (List.prefix_append c.goal m)
  · by_cases heq : l = c.goal
    · refine source [] List.nil_prefix (by rw [heq, List.append_nil]) (h.kinds [] _ ?_)
      rw [List.append_nil, place, ← heq]
      exact Disk.kind?_eq_symlink_iff.2 ⟨old, hold⟩
    · have hplace : ¬ c.place <+: c.target.location ++ l := fun hplace => heq
        (hgoal.eq_of_length_le ((List.prefix_append_right_inj _).1 hplace).length_le)
      obtain same | ⟨-, -, isDir⟩ | ⟨t, -, -, isDir, -, after⟩ := h.aside _ hplace
      · rw [Disk.node?, same] at hold
        exact hu.noLink l hgoal hne old hold
      · exact isDir.ne_symlink old hold
      · rw [Disk.node?_of_get? after] at hold
        cases isDir.symm.trans (Option.some.inj hold)
  · refine source k ((List.prefix_append_right_inj _).1 hl) rfl (h.kinds k _ ?_)
    rw [place, List.append_assoc]
    exact Disk.kind?_eq_symlink_iff.2 ⟨old, hold⟩

end Started

/-! ## Changes -/

/-- What changes is at the place or below it. -/
theorem Started.change (h : c.Started u d) (tree : d'.IsTree)
    (working : d'.workingDirectory = d.workingDirectory)
    (aside : ∀ l, ¬ c.place <+: l → d'.get? l = d.get? l) (there : d.IsDir c.place → d'.IsDir c.place)
    (kinds : ∀ m kind, d'.kind? (c.place ++ m) = some kind →
      d.kind? (c.place ++ m) = some kind ∨ u.kind? (c.source.location ++ m) = some kind) :
    c.Started u d' where
  tree := tree
  workingDirectory := working.trans h.workingDirectory
  aside l hl := by
    have heq := aside l hl
    obtain same | ⟨above, free, isDir⟩ | ⟨t, way, before, isDir, free, after⟩ := h.aside l hl
    · exact .same (heq.trans same)
    · refine .made above free ?_
      rw [Disk.IsDir, Disk.node?, heq]
      exact isDir
    · exact .listed t way before isDir free (heq.trans after)
  there := there ∘ h.there
  kinds m kind hkind := (kinds m kind hkind).elim (h.kinds m kind) id

namespace Copied

/-- More is done than was, or than there is to do. -/
theorem mono (h : c.Copied u done d)
    (hsub : ∀ m ∈ done', m ∈ done ∨ u.node? (c.source.location ++ m) = none) : c.Copied u done' d where
  toStarted := h.toStarted
  same m hm node hnode := by
    obtain hdone | hnone := hsub m hm
    · exact h.same m hdone node hnode
    · rw [hnone] at hnode
      cases hnode

theorem insert_directory (h : c.Copied u done d) (isDir : d.IsDir (c.place ++ m))
    (source : u.IsDir (c.source.location ++ m)) : c.Copied u (insert m done) d where
  toStarted := h.toStarted
  same := by
    rintro k (rfl | hk) node hnode
    · cases hnode.symm.trans source
      exact ⟨_, isDir, rfl⟩
    · exact h.same k hk node hnode

/-- A new entry leaves the copies that are there. -/
theorem of_addEntry (h : c.Copied u done d) {dir : Location}
    (free : d.node? (dir ++ [n]) = none) (started : c.Started u (d.addEntry t dir n node mode)) :
    c.Copied u done (d.addEntry t dir n node mode) where
  toStarted := started
  same m hm node₁ hnode₁ := by
    obtain ⟨node₂, hnode₂, hshown⟩ := h.same m hm node₁ hnode₁
    refine ⟨node₂, ?_, hshown⟩
    rw [Disk.node?_addEntry, if_neg, hnode₂]
    intro heq
    rw [heq, free] at hnode₂
    cases hnode₂

/-- A directory is made on the way to the place, or at the place itself. -/
theorem makeAbove (hu : c.Ready u) (h : c.Copied u done d) (way : above ++ [n] <+: c.goal)
    (isDir : d.IsDir (c.target.location ++ above))
    (free : d.node? (c.target.location ++ above ++ [n]) = none) (isName : IsName n) :
    c.Copied u done (d.addEntry t (c.target.location ++ above) n .directory mode) := by
  have hway : c.target.location ++ above ++ [n] <+: c.place := by
    rw [List.append_assoc]
    exact (List.prefix_append_right_inj _).2 way
  have hbefore : u.get? (c.target.location ++ above ++ [n]) = none :=
    Disk.node?_eq_none_iff.1 ((h.persists hu).free free)
  refine h.of_addEntry free ⟨h.tree.addEntry isDir free isName, h.workingDirectory,
    fun l hl => (h.aside l hl).addDirectory hway isDir hbefore, fun hplace => ?_, fun m kind hkind => ?_⟩
  · rw [Disk.IsDir, Disk.node?_addEntry]
    split
    · rfl
    · exact h.there hplace
  · rw [Disk.kind?, Disk.node?_addEntry] at hkind
    split at hkind
    · next heq =>
      have hm : m = [] := by
        have hlength := hway.length_le
        rw [← heq, List.length_append] at hlength
        exact List.eq_nil_of_length_eq_zero (by omega)
      rw [hm, List.append_nil, ← hkind]
      exact Disk.kind?_eq_directory_iff.2 hu.source.isDir
    · exact h.kinds m kind hkind

/-- An entry is added of the kind of what is copied. -/
theorem addEntry (h : c.Copied u done d) (isDir : d.IsDir (c.place ++ above))
    (free : d.node? (c.place ++ above ++ [n]) = none) (isName : IsName n)
    (kind : u.kind? (c.source.location ++ (above ++ [n])) = some node.kind) :
    c.Copied u done (d.addEntry t (c.place ++ above) n node mode) := by
  refine h.of_addEntry free (h.change (h.tree.addEntry isDir free isName) rfl (fun l hl => ?_)
    (fun hplace => ?_) fun m kind' hkind => ?_)
  · rw [Disk.get?_addEntry, if_neg, if_neg] <;> rintro rfl
    · exact hl (List.prefix_append _ _)
    · exact hl (by rw [List.append_assoc]; exact List.prefix_append _ _)
  · rw [Disk.IsDir, Disk.node?_addEntry, if_neg]
    · exact hplace
    · intro heq
      rw [← heq] at free
      cases free.symm.trans hplace
  · rw [Disk.kind?, Disk.node?_addEntry] at hkind
    split at hkind
    · next heq =>
      obtain rfl : m = above ++ [n] := by simpa using heq
      cases hkind
      exact .inr kind
    · exact .inl hkind

theorem withNextId (h : c.Copied u done d) (i : Nat) : c.Copied u done { d with nextId := i } :=
  ⟨h.change (h.tree.withNextId i) rfl (fun _ _ => rfl) id fun _ _ => .inl, h.same⟩

/-- Bytes are written to a file at or below the place. -/
theorem store (h : c.Copied u done d) (hf : f.location = c.place ++ m) :
    c.Copied u (done \ {m}) (d.store t f bytes) where
  toStarted := by
    refine h.change h.tree.store rfl (fun l hl => ?_) Disk.IsDir.store
      fun m kind hkind => .inl (Disk.kind?_store ▸ hkind)
    refine Disk.get?_store_of_ne ?_
    rintro rfl
    exact hl (hf ▸ List.prefix_append _ _)
  same k hk node hnode := by
    obtain ⟨node', hnode', hshown⟩ := h.same k hk.1 node hnode
    refine ⟨node', ?_, hshown⟩
    rw [Disk.node?, Disk.get?_store_of_ne, ← Disk.node?, hnode']
    rw [hf]
    exact fun heq => hk.2 (List.append_cancel_left heq)

theorem insert_node (h : c.Copied u (done \ {m}) d) {node' : Node}
    (hsource : u.node? (c.source.location ++ m) = some node)
    (hcopy : d.node? (c.place ++ m) = some node') (hshown : node'.shown = node.shown) :
    c.Copied u (insert m done) d where
  toStarted := h.toStarted
  same k hk node₁ hnode₁ := by
    by_cases heq : k = m
    · subst heq
      cases hnode₁.symm.trans hsource
      exact ⟨node', hcopy, hshown⟩
    · exact h.same k ⟨hk.resolve_left heq, heq⟩ node₁ hnode₁

end Copied

/-! ## Making directories -/

section Paths

variable (hu : c.Ready u)
include hu

/-- Directories may be made on the way to the place, and where there are directories in what is
copied. -/
theorem making (hmore : more <+: c.goal ++ m)
    (dirs : ∀ k, k <+: m → c.goal ++ k <+: more → u.IsDir (c.source.location ++ k)) :
    c.target.Making mode more (c.Copied u done) where
  stands d h := h.target_stands hu
  noLink d h l hl hne := by
    refine h.noLink hu (hl.trans hmore) hne fun k hk heq hlink => ?_
    obtain ⟨old, hold⟩ := Disk.kind?_eq_symlink_iff.1 hlink
    exact (dirs k hk (heq ▸ hl)).ne_symlink old hold
  made t d above n h hl isName isDir free := by
    obtain hgoal | ⟨k, hk⟩ :=
      List.prefix_or_prefix_of_prefix (hl.trans hmore) (List.prefix_append c.goal m)
    · exact h.makeAbove hu hgoal isDir free isName
    · obtain rfl | ⟨k, n', rfl⟩ := k.eq_nil_or_concat'
      · rw [List.append_nil] at hk
        exact h.makeAbove hu (hk ▸ List.prefix_rfl) isDir free isName
      · rw [← List.append_assoc] at hk
        obtain ⟨rfl, hn⟩ := List.append_inj' hk rfl
        cases hn
        have hkm : k ++ [n] <+: m := by
          have hall := hl.trans hmore
          rwa [List.append_assoc, List.prefix_append_right_inj] at hall
        rw [← List.append_assoc] at isDir free ⊢
        refine h.addEntry isDir free isName ?_
        exact Disk.kind?_eq_directory_iff.2 (dirs _ hkm (by rwa [← List.append_assoc]))

/-- A directory is made as the copy of one, with those above it, unless it is there. -/
theorem makeDirectories (hp : c.target.Spells p (c.goal ++ m))
    (dirs : ∀ k, k <+: m → u.IsDir (c.source.location ++ k)) :
    Leaves (c.Copied u done) (Tree.makeDirectories p mode) (fun _ => c.Copied u (insert m done))
      (c.Started u) := by
  have making : c.target.Making mode (c.goal ++ m) (c.Copied u done) :=
    making hu List.prefix_rfl fun k hk _ => dirs k hk
  refine Leaves.of_triple ?_ (making.makeDirectories hp) (fun _ => id) fun _ h => h.toStarted
  by_cases hnil : c.goal ++ m = []
  · refine (making.makeDirectories hp).triple.post fun _ d h => ?_
    obtain ⟨hgoal, rfl⟩ := List.append_eq_nil_iff.1 hnil
    refine h.1.insert_directory ?_ (dirs [] List.prefix_rfl)
    rw [place, hgoal, List.append_nil, List.append_nil]
    exact (h.1.target_stands hu).isDir
  · refine (making.isDir (fun d h => h.working hu) hp hnil).post fun _ d h => ?_
    refine h.1.insert_directory ?_ (dirs m List.prefix_rfl)
    rw [place, List.append_assoc]
    exact h.2.1

/-- What is above an entry that is copied are directories. -/
theorem isDir_above (there : u.node? (c.source.location ++ m) ≠ none) {k : Location} (hk : k <+: m)
    (hne : k ≠ m) : u.IsDir (c.source.location ++ k) :=
  hu.source.tree.isDir_of_prefix ((List.prefix_append_right_inj _).2 hk)
    (fun heq => hne (List.append_cancel_left heq)) there

/-- What is above a directory that is copied are directories. -/
theorem isDir_of_prefix (isDir : u.IsDir (c.source.location ++ m)) {k : Location} (hk : k <+: m) :
    u.IsDir (c.source.location ++ k) := by
  by_cases heq : k = m
  · rw [heq]
    exact isDir
  · exact isDir_above hu (Disk.node?_ne_none_of_eq isDir) hk heq

theorem makeParent (hp : c.target.Spells p (c.goal ++ (more ++ [n])))
    (there : u.node? (c.source.location ++ (more ++ [n])) ≠ none) :
    Leaves (c.Copied u done) (Tree.makeParent p) (fun _ => c.Copied u done) (c.Started u) := by
  unfold Tree.makeParent
  cases hparent : p.parent? with
  | none => exact Leaves.pure fun _ => id
  | some above =>
    rw [← List.append_assoc] at hp
    refine ((makeDirectories hu (hp.parent hparent) fun k hk => ?_).named _ _).post fun _ d h =>
      h.mono fun m hm => .inl (Set.mem_insert_of_mem _ hm)
    refine isDir_above hu there (hk.trans (List.prefix_append _ _)) ?_
    rintro rfl
    exact absurd hk.length_le (by simp)

/-! ## Copying entries -/

/-- No link is on the way to the copy of what is there. -/
theorem Started.openWay (h : c.Started u d) (there : u.node? (c.source.location ++ m) ≠ none) :
    d.OpenWay c.target.location (c.goal ++ m) := by
  intro l hl hne hend old
  refine h.noLink hu hl hne (fun k hk heq hlink => ?_) old
  obtain ⟨old', hold'⟩ := Disk.kind?_eq_symlink_iff.1 hlink
  refine (isDir_above hu there hk ?_).ne_symlink old' hold'
  rintro rfl
  exact hend heq

/-- What the path of an entry that is copied leads to is what was there before. -/
theorem Started.entry_of_lookAt (h : c.Started u d) (hs : c.source.Spells source (more ++ [n]))
    (hsource : source.EndsInName) (hget : u.get? (c.source.location ++ (more ++ [n])) = some e)
    {x : Location × Entry} (hlook : d.lookAt source = .ok x) : x.2 = e := by
  rw [← h.get?_source hu] at hget
  obtain ⟨-, hget'⟩ := hs.get?_of_find (h.source_stands hu) (by simp)
    (h.tree.openWay (by rw [Disk.node?_of_get? hget]; nofun)) (.inl ⟨rfl, hsource⟩) hlook
  rw [hget] at hget'
  exact (Option.some.inj hget').symm

section Entry

variable (hp : c.target.Spells target (c.goal ++ (more ++ [n])))
  (hget : u.get? (c.source.location ++ (more ++ [n])) = some e)
include hp hget

theorem makeLink {old : Path} (hnode : e.node = .symlink old) (ends : target.LastIsName) :
    Leaves (c.Copied u done)
      (Action.change fun t d => d.makeLink t old target : Action IoError Unit)
      (fun _ => c.Copied u (insert (more ++ [n]) done)) (c.Started u) := by
  refine Leaves.change (fun t d d' h hmake => ?_) fun _ h => h.toStarted
  obtain ⟨dir, n', free, rfl⟩ := Disk.of_makeLink hmake
  obtain ⟨above, split, rfl, isDir, isName⟩ := hp.of_leadsToFree (h.target_stands hu) (by simp)
    (h.openWay hu (by rw [Disk.node?_of_get? hget]; nofun)) (.inl ⟨rfl, ends⟩) free
  have hfree := free.free
  rw [← List.append_assoc] at split
  obtain ⟨rfl, hn⟩ := List.append_inj' split rfl
  cases hn
  rw [← List.append_assoc] at isDir hfree ⊢
  have hadded : c.Copied u done (d.addEntry t (c.place ++ more) n (.symlink old) 0o777) :=
    h.addEntry isDir hfree isName (by rw [Disk.kind?_of_get? hget, hnode])
  have hothers := hadded.mono fun m (hm : m ∈ done \ {more ++ [n]}) => .inl hm.1
  refine hothers.insert_node (Disk.node?_of_get? hget) ?_ (by rw [hnode])
  rw [Disk.node?_addEntry, if_pos (List.append_assoc ..).symm]

/-- The file that is opened to hold a copy is at the place of the copy, and is empty. -/
theorem openCopy {id : Nat} (hnode : e.node = .file id bytes) :
    Leaves (c.Copied u done)
      (Action.request fun t d => d.openOrCreate t target mode true : Action IoError OpenFile)
      (fun f d => c.Copied u (done \ {more ++ [n]}) d ∧ f.location = c.place ++ (more ++ [n]) ∧
        d.node? f.location = some (.file f.id #[])) (c.Started u) := by
  have there : u.node? (c.source.location ++ (more ++ [n])) ≠ none := by
    rw [Disk.node?_of_get? hget]
    nofun
  have kind : u.kind? (c.source.location ++ (more ++ [n])) = some .file := by
    rw [Disk.kind?_of_get? hget, hnode]
    rfl
  refine Leaves.request (fun t d f d' h hopen => ?_) fun _ h => h.toStarted
  obtain ⟨dir, n', htarget, hlocation, hcases⟩ := Disk.of_openOrCreate hopen
  have noLink : ∀ old, d.node? (c.target.location ++ (c.goal ++ (more ++ [n]))) ≠
      some (.symlink old) := by
    refine h.noLink hu List.prefix_rfl (by simp) fun k hk heq hlink => ?_
    obtain rfl := List.append_cancel_left heq
    cases kind.symm.trans hlink
  obtain ⟨above, split, rfl, isDir, -⟩ := hp.of_target_name (h.target_stands hu) (by simp)
    (h.openWay hu there) (.inr noLink) htarget
  rw [← List.append_assoc] at split
  obtain ⟨rfl, hn⟩ := List.append_inj' split rfl
  cases hn
  rw [← List.append_assoc] at isDir hlocation
  have hf : f.location = c.place ++ (more ++ [n]) := by rw [hlocation, ← List.append_assoc]; rfl
  obtain ⟨free, hid, rfl⟩ | ⟨old, hold, rfl⟩ := hcases
  · have isName := hp.isName (n := n) (by simp) free.short
    have hfree := free.free
    rw [← List.append_assoc] at hfree ⊢
    have hadded : c.Copied u done
        (d.addEntry t (c.place ++ more) n (.file d.nextId #[]) (mode &&& fileModeMask)) :=
      h.addEntry isDir hfree isName kind
    refine ⟨?_, hf, ?_⟩
    · exact (hadded.withNextId _).mono fun m hm => .inl hm.1
    · rw [hlocation, hid]
      exact Disk.node?_addEntry.trans (if_pos rfl)
  · rw [← List.append_assoc, ← hlocation] at hold
    rw [if_pos rfl]
    have holds : d.Holds f := ⟨old, hold⟩
    exact ⟨h.store hf, hf, holds.node?_store⟩

/-- A file is copied: what is read is what was there before, as it is not at the place of the copy. -/
theorem copyFile {id : Nat} (hs : c.source.Spells source (more ++ [n]))
    (hnode : e.node = .file id bytes) :
    Leaves (c.Copied u done) (Tree.copyFile target source bytes.size)
      (fun _ => c.Copied u (insert (more ++ [n]) done)) (c.Started u) := by
  have hfile : ∀ {d}, c.Started u d →
      d.node? (c.source.location ++ (more ++ [n])) = some (.file id bytes) := fun h => by
    rw [h.node?_source hu, Disk.node?_of_get? hget, hnode]
  unfold Tree.copyFile
  refine Leaves.bind (Q := fun input d => input = ⟨c.source.location ++ (more ++ [n]), id⟩ ∧
    c.Copied u done d) (Leaves.named (Leaves.ask (fun d input h hopen => ?_) fun _ h => h.toStarted) _ _)
    fun input => Leaves.given (fun _ h => h.1) ?_
  · obtain ⟨e', bytes', hfind, hnode'⟩ := Disk.of_openExisting hopen
    have hthere := hfile h.toStarted
    obtain ⟨hlocation, hget'⟩ := hs.get?_of_find (h.source_stands hu) (by simp)
      (h.tree.openWay (Disk.node?_ne_none_of_eq hthere)) (.inr (by rw [hthere]; nofun)) hfind
    rw [Disk.node?_of_get? hget', hnode'] at hthere
    cases hthere
    exact ⟨by rw [← hlocation], h⟩
  rintro rfl
  refine Leaves.bind (Leaves.named ((openCopy hu hp hget hnode).pre fun _ h => h.2) _ _) fun copy => ?_
  refine Leaves.bind (Q := fun read d => read = bytes ∧ c.Copied u (done \ {more ++ [n]}) d ∧
    copy.location = c.place ++ (more ++ [n]) ∧ d.node? copy.location = some (.file copy.id #[]))
    (Leaves.ask (fun d read h hread => ?_) fun _ h => h.1.toStarted)
    fun read => Leaves.given (fun _ h => h.1) ?_
  · cases hread
    exact ⟨Disk.Holds.load (hfile h.1.toStarted), h⟩
  rintro rfl
  refine Leaves.bind (Q := fun _ => c.Copied u (insert (more ++ [n]) done))
    (Leaves.change (fun t d d' h happend => ?_) fun _ h => h.2.1.toStarted) fun _ => ?_
  · cases happend
    obtain ⟨-, h, hf, hempty⟩ := h
    have hwritten : c.Copied u (done \ {more ++ [n]}) (d.append t copy read) :=
      (h.store hf).mono fun m hm => .inl ⟨hm, hm.2⟩
    refine hwritten.insert_node (hfile hu.started) (hf ▸ Disk.node?_append hempty) ?_
    rw [Array.empty_append]
    rfl
  · rw [if_neg (not_not_intro rfl)]
    exact Leaves.pure fun _ h => h

/-- An entry is copied. -/
theorem copyEntry (ends : target.LastIsName) (hs : c.source.Spells source (more ++ [n]))
    (hsource : source.EndsInName) :
    Leaves (c.Copied u done) (Tree.copyEntry target source)
      (fun _ => c.Copied u (insert (more ++ [n]) done)) (c.Started u) := by
  have there : u.node? (c.source.location ++ (more ++ [n])) ≠ none := by
    rw [Disk.node?_of_get? hget]
    nofun
  unfold Tree.copyEntry
  refine Leaves.bind (Q := fun x d => x.2 = e ∧ c.Copied u done d)
    (Leaves.named (Leaves.ask (fun d x h hlook => ?_) fun _ h => h.toStarted) _ _)
    fun x => Leaves.given (fun _ h => h.1) ?_
  · exact ⟨h.entry_of_lookAt hu hs hsource hget hlook, h⟩
  intro hx
  simp only [hx]
  cases hnode : e.node with
  | directory =>
    exact ((makeDirectories hu hp fun k hk =>
      isDir_of_prefix hu (Disk.isDir_of_get? hget hnode) hk).named _ _).pre fun _ h => h.2
  | symlink old =>
    exact ((makeParent hu hp there).pre fun _ h => h.2).bind fun _ =>
      (makeLink hu hp hget hnode ends).named _ _
  | file id bytes =>
    exact ((makeParent hu hp there).pre fun _ h => h.2).bind fun _ =>
      copyFile hu hp hget hs hnode

end Entry

/-- What the path of the directory that is copied leads to, through links or not. -/
theorem Started.location_of_find (h : c.Started u d) {follow : Bool}
    (hfind : d.find follow c.source.path = .ok (l, e)) :
    l = c.source.location ∧ e.node = .directory := by
  obtain ⟨e₀, hlook, isDir⟩ := hu.looked
  have hu' : u.find follow c.source.path = .ok (c.source.location, e₀) := by
    cases follow with
    | false => exact hlook
    | true => exact Disk.find_of_lookAt hu.source.tree hlook (by rw [isDir]; nofun)
  obtain ⟨e₁, hd, hget⟩ := (h.persists hu).find hu'
  cases hd.symm.trans hfind
  have hdir := (h.source_stands hu).isDir
  rw [Disk.IsDir, Disk.node?_of_get? hget] at hdir
  exact ⟨rfl, Option.some.inj hdir⟩

/-- The directory itself is copied. -/
theorem copyRoot (hp : c.target.Spells target c.goal) :
    Leaves (c.Copied u done) (Tree.copyEntry target c.source.path)
      (fun _ => c.Copied u (insert [] done)) (c.Started u) := by
  unfold Tree.copyEntry
  refine Leaves.bind (Q := fun x d => x.2.node = .directory ∧ c.Copied u done d)
    (Leaves.named (Leaves.ask (fun d x h hlook => ⟨(h.location_of_find hu hlook).2, h⟩)
      fun _ h => h.toStarted) _ _) fun x => Leaves.given (fun _ h => h.1) fun hnode => ?_
  simp only [hnode]
  refine ((makeDirectories hu ((List.append_nil c.goal).symm ▸ hp) fun k hk => ?_).named _ _).pre
    fun _ h => h.2
  rw [List.prefix_nil.1 hk, List.append_nil]
  exact hu.source.isDir

end Paths

end Transfer

end TwinTrees
