import TwinTrees.Proofs.Base.Making
import TwinTrees.Proofs.Base.Sides
import TwinTrees.Proofs.Disk.Files
import TwinTrees.Proofs.Verb.Names

/-!
# Copying the left side leaves it as it was

A copy is made by following a path on the right side, and what is there may be a link that leads back
to the left. While no link on the right side has the name of a directory or file of the left side,
this cannot happen: every path to a copy goes through copies of directories only, and a file is
opened at its own name. The copies of links have the names of links, so the copy keeps this up itself,
and whatever it has done so far when it fails, the left side is as it was (`Sourced`).

The names that the arguments give matter as well: with `..`, or through a link of the left side, a
name can lead to the same entry on both sides.
-/

namespace TwinTrees

open TwinTrees.Action (Always)

/-- The log is a file that was opened at the location. -/
def LogSink.IsAt (s : LogSink) (l : Location) : Prop := ∃ path f, s = .file path f ∧ f.location = l

namespace Base

variable {b : Base} {sink : LogSink} {u d d' : Disk} {m above more : Location} {n : Name} {t : Time}
  {mode : Mode} {target source : Path} {ε : Type}

/-- A disk while the left side of the disk `u` is being copied (see the module docstring). -/
structure Sourced (b : Base) (sink : LogSink) (u d : Disk) : Prop where
  stands : b.Stands d
  kinds : ∀ m, d.kind? (b.onSide .lhs m) = u.kind? (b.onSide .lhs m)
  left : ∀ m, ¬ sink.IsAt (b.onSide .lhs m) → d.get? (b.onSide .lhs m) = u.get? (b.onSide .lhs m)
  apart : ∀ m kind, u.kind? (b.onSide .lhs m) = some kind → kind ≠ .symlink →
    d.kind? (b.onSide .rhs m) ≠ some .symlink

namespace Sourced

/-! ## Changes on the right side -/

theorem change (h : b.Sourced sink u d) (stands : b.Stands d')
    (kinds : ∀ m, d'.kind? (b.onSide .lhs m) = d.kind? (b.onSide .lhs m))
    (left : ∀ m, ¬ sink.IsAt (b.onSide .lhs m) →
      d'.get? (b.onSide .lhs m) = d.get? (b.onSide .lhs m))
    (links : ∀ m, d'.kind? (b.onSide .rhs m) = some .symlink →
      d.kind? (b.onSide .rhs m) = some .symlink ∨ u.kind? (b.onSide .lhs m) = some .symlink) :
    b.Sourced sink u d' where
  stands := stands
  kinds m := (kinds m).trans (h.kinds m)
  left m hm := (left m hm).trans (h.left m hm)
  apart m kind hkind hne hlink := by
    obtain hold | hcopied := links m hlink
    · exact h.apart m kind hkind hne hold
    · rw [hkind] at hcopied
      exact hne (Option.some.inj hcopied)

theorem withNextId (h : b.Sourced sink u d) (i : Nat) : b.Sourced sink u { d with nextId := i } :=
  h.change (h.stands.mono (h.stands.tree.withNextId i) rfl fun hl _ => hl) (fun _ => rfl)
    (fun _ _ => rfl) fun _ => .inl

/-- A new entry of the right side, which is a link only where the left side has one. -/
theorem addEntry (h : b.Sourced sink u d) (split : Side.rhs.name.toList :: m = above ++ [n])
    (isDir : d.IsDir (b.location ++ above)) (free : d.node? (b.location ++ above ++ [n]) = none)
    (isName : IsName n) {node : Node}
    (link : node.kind = .symlink → u.kind? (b.onSide .lhs m) = some .symlink) :
    b.Sourced sink u (d.addEntry t (b.location ++ above) n node mode) := by
  have hnew : b.location ++ above ++ [n] = b.onSide .rhs m := by
    rw [List.append_assoc, ← split, onSide]
  have hleft : ∀ m', (d.addEntry t (b.location ++ above) n node mode).get? (b.onSide .lhs m') =
      d.get? (b.onSide .lhs m') := by
    intro m'
    have hnew' : b.onSide .lhs m' ≠ b.location ++ (above ++ [n]) :=
      onSide_ne .rhs (m := m) (by decide) (split ▸ List.prefix_rfl)
    have hdir : b.onSide .lhs m' ≠ b.location ++ above :=
      onSide_ne .rhs (m := m) (by decide) (split ▸ List.prefix_append _ _)
    rw [Disk.get?_addEntry, if_neg (by rwa [List.append_assoc]), if_neg hdir]
  refine h.change (h.stands.mono (h.stands.tree.addEntry isDir free isName) rfl ?_) (fun m' => ?_)
    (fun m' _ => hleft m') fun m' hlink => ?_
  · intro l old hl _
    rw [Disk.node?_addEntry, if_neg, hl]
    rintro rfl
    rw [free] at hl
    cases hl
  · rw [Disk.kind?, Disk.node?, hleft]
    rfl
  · rw [Disk.kind?, Disk.node?_addEntry, hnew] at hlink
    split at hlink
    · next heq =>
      obtain rfl := onSide_inj.1 heq
      exact .inr (link (Option.some.inj hlink))
    · exact .inl hlink

/-- A file of the right side, or the log, is written to. -/
theorem store (h : b.Sourced sink u d) {f : OpenFile}
    (at_ : f.location = b.onSide .rhs m ∨ sink.IsAt f.location) (bytes : Bytes) :
    b.Sourced sink u (d.store t f bytes) := by
  refine h.change (h.stands.mono h.stands.tree.store rfl Disk.node?_store_of_some)
    (fun _ => Disk.kind?_store) (fun m' hlog => ?_) fun m' hlink => .inl (Disk.kind?_store ▸ hlink)
  refine Disk.get?_store_of_ne fun heq => ?_
  obtain hright | hat := at_
  · exact onSide_ne .rhs (m := m) (by decide) List.prefix_rfl (heq.trans hright)
  · exact hlog (heq ▸ hat)

theorem write {env : Environment} (hsink : env.sink = sink) {e : Event} :
    Always (ε := ε) (b.Sourced sink u) (env.write e) fun _ => True := by
  refine Always.write fun path f hf t d bytes h => ?_
  exact h.store (m := []) (.inr ⟨path, f, hsink ▸ hf, rfl⟩) _

/-! ## Paths to copies -/

variable (hu : u.IsTree)

theorem noLink_right (h : b.Sourced sink u d) {kind : Kind}
    (there : u.kind? (b.onSide .lhs m) = some kind) (hkind : kind ≠ .symlink) (old : Path) :
    d.node? (b.onSide .rhs m) ≠ some (.symlink old) :=
  Disk.ne_symlink_of_kind? (h.apart m kind there hkind) old

include hu in
theorem isDir_above (there : u.kind? (b.onSide .lhs m) ≠ none) (hm : above <+: m) (hne : above ≠ m) :
    u.kind? (b.onSide .lhs above) = some .directory :=
  Disk.kind?_eq_directory_iff.2 (hu.isDir_of_prefix (b.onSide_prefix .lhs hm)
    (fun heq => hne (onSide_inj.1 heq)) fun hnone => there (Disk.kind?_eq_none_iff.2 hnone))

include hu in
/-- No link is on the way to the copy of what is on the left side. -/
theorem openWay_right (h : b.Sourced sink u d) (there : u.kind? (b.onSide .lhs m) ≠ none) :
    d.OpenWay b.location (Side.rhs.name.toList :: m) := by
  intro l hl hne hend old
  obtain ⟨c, l, rfl⟩ := List.exists_cons_of_ne_nil hne
  obtain ⟨rfl, hlm⟩ := List.cons_prefix_cons.1 hl
  exact h.noLink_right (isDir_above hu there hlm fun heq => hend (by rw [heq])) (by decide) old

/-- No link is on the way to what is on the left side, as none is there on the disk `u`. -/
theorem openWay_left (h : b.Sourced sink u d)
    (way : ∀ l, l <+: m → l ≠ m → u.kind? (b.onSide .lhs l) ≠ some .symlink) :
    d.OpenWay b.location (Side.lhs.name.toList :: m) := by
  intro l hl hne hend old hold
  obtain ⟨c, l, rfl⟩ := List.exists_cons_of_ne_nil hne
  obtain ⟨rfl, hlm⟩ := List.cons_prefix_cons.1 hl
  refine way l hlm (fun heq => hend (by rw [heq])) ?_
  rw [← h.kinds]
  exact Disk.kind?_eq_symlink_iff.2 ⟨old, hold⟩

/-- Directories may be made where the left side has directories. -/
theorem making (hmore : more <+: Side.rhs.name.toList :: m)
    (dirs : ∀ l, Side.rhs.name.toList :: l <+: more →
      u.kind? (b.onSide .lhs l) = some .directory) :
    b.Making mode more (b.Sourced sink u) where
  stands _ h := h.stands
  noLink d h l hl hne := by
    obtain ⟨c, l, rfl⟩ := List.exists_cons_of_ne_nil hne
    obtain ⟨rfl, -⟩ := List.cons_prefix_cons.1 (hl.trans hmore)
    exact h.noLink_right (dirs l hl) (by decide)
  made t d above n h hl isName isDir free := by
    obtain ⟨c, l, hsplit⟩ := List.exists_cons_of_ne_nil (l := above ++ [n]) (by simp)
    rw [hsplit] at hl
    obtain ⟨rfl, -⟩ := List.cons_prefix_cons.1 (hl.trans hmore)
    exact h.addEntry hsplit.symm isDir free isName nofun

include hu in
theorem makeParent (ht : b.Spells target (Side.rhs.name.toList :: m))
    (there : u.kind? (b.onSide .lhs m) ≠ none) :
    Always (b.Sourced sink u) (Tree.makeParent target) fun _ => True := by
  unfold Tree.makeParent
  cases hparent : target.parent? with
  | none => exact Always.pure trivial
  | some q =>
    obtain ⟨above, n, hsplit⟩ : ∃ above n, Side.rhs.name.toList :: m = above ++ [n] :=
      ⟨_, _, (List.dropLast_append_getLast (List.cons_ne_nil _ _)).symm⟩
    rw [hsplit] at ht
    refine Always.named ((making (m := m) (hsplit ▸ List.prefix_append _ _) fun l hl => ?_).makeDirectories
      (ht.parent hparent)) _ _
    have hlm : Side.rhs.name.toList :: l <+: Side.rhs.name.toList :: m :=
      hl.trans (hsplit ▸ List.prefix_append _ _)
    refine isDir_above hu there (List.cons_prefix_cons.1 hlm).2 ?_
    rintro rfl
    have hlength := hl.length_le
    rw [hsplit, List.length_append] at hlength
    exact absurd hlength (by simp)

/-! ## Copying one entry -/

/-- What is found on the left side is what is at these names. -/
theorem get?_left_of_find (h : b.Sourced sink u d) (hs : b.Spells source (Side.lhs.name.toList :: m))
    (way : ∀ l, l <+: m → l ≠ m → u.kind? (b.onSide .lhs l) ≠ some .symlink) {follow : Bool}
    (final : follow = false ∧ source.EndsInName ∨ u.kind? (b.onSide .lhs m) ≠ some .symlink)
    {l : Location} {e : Entry} (hfind : d.find follow source = .ok (l, e)) :
    l = b.onSide .lhs m ∧ u.kind? (b.onSide .lhs m) = some e.node.kind := by
  obtain ⟨hl, hget⟩ := hs.get?_of_find h.stands (List.cons_ne_nil _ _) (h.openWay_left way)
    (final.imp_right fun hkind old hold => hkind (by
      rw [← h.kinds]
      exact Disk.kind?_eq_symlink_iff.2 ⟨old, hold⟩)) hfind
  exact ⟨hl, by rw [← h.kinds]; exact Disk.kind?_of_get? hget⟩

section Entry

variable (ht : b.Spells target (Side.rhs.name.toList :: m))
include hu ht

theorem copyDirectory (isDir : u.kind? (b.onSide .lhs m) = some .directory) :
    Always (b.Sourced sink u) (Tree.copyDirectory target mode) fun _ => True := by
  refine Always.named ((making (m := m) List.prefix_rfl fun l hl => ?_).makeDirectories ht) _ _
  by_cases heq : l = m
  · rw [heq, isDir]
  · exact isDir_above hu (by rw [isDir]; nofun) (List.cons_prefix_cons.1 hl).2 heq

/-- A link is copied only where the path ends in no slash. -/
theorem makeLink (isLink : u.kind? (b.onSide .lhs m) = some .symlink) (hlast : target.LastIsName)
    (old : Path) :
    Always (b.Sourced sink u)
      (Action.change fun t d => d.makeLink t old target : Action IoError Unit)
      fun _ => target.endsInSlash = false := by
  refine Always.change fun t d d' h hmake => ?_
  obtain ⟨dir, n, htarget, hchild, rfl⟩ := Disk.target_of_makeLink hmake
  obtain ⟨above, split, rfl, isDir, hslash⟩ := ht.of_target_name h.stands (List.cons_ne_nil _ _)
    (h.openWay_right hu (by rw [isLink]; nofun)) (.inl ⟨rfl, hlast⟩) htarget
  obtain ⟨short, hfree⟩ := Disk.of_child?_eq_ok hchild
  exact ⟨h.addEntry split isDir (Disk.node?_eq_none_iff.2 hfree)
    (ht.isName (by rw [split]; simp) short) fun _ => isLink, hslash.symm⟩

/-- The file that is opened to hold a copy is on the right side. -/
theorem openCopy (isFile : u.kind? (b.onSide .lhs m) = some .file) {truncate : Bool} :
    Always (b.Sourced sink u)
      (Action.request fun t d => d.openOrCreate t target mode truncate : Action IoError OpenFile)
      fun f => f.location = b.onSide .rhs m := by
  refine Always.request fun t d f d' h hopen => ?_
  obtain ⟨dir, n, htarget, hf, hcases⟩ := Disk.of_openOrCreate hopen
  obtain ⟨above, split, rfl, isDir, -⟩ := ht.of_target_name h.stands (List.cons_ne_nil _ _)
    (h.openWay_right hu (ne_of_eq_of_ne isFile (Option.some_ne_none _)))
    (.inr (h.noLink_right isFile (by decide))) htarget
  have hright : f.location = b.onSide .rhs m := by
    rw [hf, List.append_assoc, ← split, onSide]
  refine ⟨?_, hright⟩
  obtain ⟨free, -, rfl⟩ | ⟨bytes, -, rfl⟩ := hcases
  · have hnew : b.Sourced sink u
        (d.addEntry t (b.location ++ above) n (.file d.nextId #[]) (mode &&& fileModeMask)) :=
      h.addEntry split isDir free.free (ht.isName (by rw [split]; simp) free.short)
        fun hkind => by cases hkind
    exact hnew.withNextId _
  · split
    · exact h.store (.inl hright) _
    · exact h

theorem copyFile (isFile : u.kind? (b.onSide .lhs m) = some .file) (source : Path) (size : Nat) :
    Always (b.Sourced sink u) (Tree.copyFile target source size) fun _ => True := by
  unfold Tree.copyFile
  refine (Always.named (Always.ask (Q := fun _ => True) fun _ _ _ _ => trivial) _ _).bind
    fun input _ => ?_
  refine (Always.named (openCopy hu ht isFile) _ _).bind fun copy hcopy => ?_
  refine (Always.ask (Q := fun _ => True) fun _ _ _ _ => trivial).bind fun bytes _ => ?_
  refine (Always.change (Q := fun _ => True) fun t d d' h happend => ?_).bind fun _ _ => ?_
  · cases happend
    exact ⟨h.store (.inl hcopy) _, trivial⟩
  · split
    · exact Always.throw _
    · exact Always.pure trivial

/-- If the copy succeeds although the path to it ends in a slash, no link was copied. -/
theorem copyEntry (hs : b.Spells source (Side.lhs.name.toList :: m))
    (way : ∀ l, l <+: m → l ≠ m → u.kind? (b.onSide .lhs l) ≠ some .symlink)
    (final : source.EndsInName ∧ target.LastIsName ∨ u.kind? (b.onSide .lhs m) ≠ some .symlink) :
    Always (b.Sourced sink u) (Tree.copyEntry target source) fun _ =>
      target.endsInSlash = true → u.kind? (b.onSide .lhs m) ≠ some .symlink := by
  unfold Tree.copyEntry
  refine (Always.named (Always.ask (Q := fun x => u.kind? (b.onSide .lhs m) = some x.2.node.kind)
    fun d x h hlook => ?_) _ _).bind fun x hkind => ?_
  · exact (h.get?_left_of_find hs way (final.imp_left fun hname => ⟨rfl, hname.1⟩) hlook).2
  have there : u.kind? (b.onSide .lhs m) ≠ none := by
    rw [hkind]
    nofun
  cases hnode : x.2.node with
  | directory =>
    rw [hnode] at hkind
    simp only [hnode]
    exact (copyDirectory hu ht hkind).post fun _ _ _ => by rw [hkind]; nofun
  | symlink old =>
    rw [hnode] at hkind
    simp only [hnode]
    refine (makeParent hu ht there).bind fun _ _ => ?_
    refine (Always.named (makeLink hu ht hkind
      (final.resolve_right fun hne => hne hkind).2 old) _ _).post fun _ hslash hend => ?_
    rw [hslash] at hend
    cases hend
  | file id bytes =>
    rw [hnode] at hkind
    simp only [hnode]
    refine (makeParent hu ht there).bind fun _ _ => ?_
    exact (copyFile hu ht hkind source _).post fun _ _ _ => by rw [hkind]; nofun

end Entry

/-! ## Copying trees -/

include hu

/-- A directory with all that is in it is copied, or a link for which its own copy fails. -/
theorem copyLevels (root : Path) (depth : Nat) {copySelf : Action CommandError Unit}
    (ht : b.Spells target (Side.rhs.name.toList :: m))
    (hs : b.Spells source (Side.lhs.name.toList :: m))
    (way : ∀ l, l <+: m → l ≠ m → u.kind? (b.onSide .lhs l) ≠ some .symlink)
    (hself : Always (b.Sourced sink u) copySelf fun _ => u.kind? (b.onSide .lhs m) ≠ some .symlink) :
    Always (b.Sourced sink u) (Tree.copyLevels root depth target source copySelf)
      fun _ => True := by
  induction depth generalizing m target source copySelf with
  | zero => exact hself.bind fun _ _ => Always.throw _
  | succ depth ih =>
    rw [Tree.copyLevels]
    refine (Always.ask (Q := fun found => ∀ names, found = .ok names →
      u.kind? (b.onSide .lhs m) ≠ some .symlink → ∀ x ∈ names,
        u.kind? (b.onSide .lhs (m ++ [x.1])) = some x.2) fun d found h hlist => ?_).bind
      fun found hfound => ?_
    · cases hlist
      rintro names hlist hkind x hx
      obtain ⟨l, e, hfind, -, rfl⟩ := Disk.of_list hlist
      obtain ⟨rfl, -⟩ := h.get?_left_of_find hs way (.inr hkind) hfind
      rw [← h.kinds, onSide_append]
      exact ((h.stands.tree.lists _).mem_iff x.1 x.2).1 hx
    refine hself.bind fun _ hkind => ?_
    cases found with
    | error fault => exact Always.throw _
    | ok names =>
      refine Always.forM fun x hx => ?_
      obtain ⟨n, kind⟩ := x
      have hx : (n, kind) ∈ names := (List.mergeSort_perm ..).mem_iff.1 hx
      have hn : u.kind? (b.onSide .lhs (m ++ [n])) = some kind := hfound names rfl hkind _ hx
      have there : u.kind? (b.onSide .lhs (m ++ [n])) ≠ none := by
        rw [hn]
        nofun
      have isName : IsName n := hu.named (l := b.onSide .lhs m) fun hnone => there (by
        rw [Disk.kind?_eq_none_iff, onSide_append, hnone])
      have way' : ∀ l, l <+: m ++ [n] → l ≠ m ++ [n] →
          u.kind? (b.onSide .lhs l) ≠ some .symlink := by
        intro l hl hne
        rw [isDir_above hu there hl hne]
        nofun
      have hcopy : Always (b.Sourced sink u)
          (Tree.copyEntry (Tree.inside target n) (Tree.inside source n)) _ :=
        copyEntry (m := m ++ [n]) hu (ht.inside isName) (hs.inside isName) way'
        (.inl ⟨Path.endsInName_inside isName, (Path.endsInName_inside isName).last⟩)
      simp only
      split
      · next hdir =>
        refine ih (m := m ++ [n]) (ht.inside isName) (hs.inside isName) way' (hcopy.post fun _ _ => ?_)
        rw [hn, hdir]
        nofun
      · exact hcopy.post fun _ _ => trivial

theorem copyTree (ht : b.Spells target (Side.rhs.name.toList :: m))
    (hs : b.Spells source (Side.lhs.name.toList :: m))
    (way : ∀ l, l <+: m → l ≠ m → u.kind? (b.onSide .lhs l) ≠ some .symlink)
    (final : source.EndsInName ∧ target.LastIsName ∨ u.kind? (b.onSide .lhs m) ≠ some .symlink) :
    Always (b.Sourced sink u) (Tree.copyTree target source) fun _ => True := by
  have hself : Always (b.Sourced sink u) (Tree.copyEntry (target.join ⟨""⟩) source)
      fun _ => u.kind? (b.onSide .lhs m) ≠ some .symlink :=
    (copyEntry hu ht.withSlash hs way (final.imp_left fun h => ⟨h.1, h.2.withSlash⟩)).post
      fun _ h => h (Path.endsInSlash_join_empty (ht.nonempty (List.cons_ne_nil _ _)))
  have hany : ∀ {α : Type} {f : Disk → Except IoError α} (g : IoError → CommandError),
      Always (b.Sourced sink u) ((Action.ask f).mapError g) fun _ => True :=
    fun g => Always.mapError (Always.ask fun _ _ _ _ => trivial) g
  have hcopy : ∀ e : Entry, Always (b.Sourced sink u)
      (if e.node.kind = .directory then
        Tree.copyLevels source pathLimit (target.join ⟨""⟩) source
          (Tree.copyEntry (target.join ⟨""⟩) source)
        else Tree.copyEntry (target.join ⟨""⟩) source) fun _ => True := by
    intro e
    split
    · exact copyLevels hu source pathLimit ht.withSlash hs way hself
    · exact hself.post fun _ _ => trivial
  unfold Tree.copyTree
  refine (hany _).bind fun x _ => ?_
  simp only
  split
  · exact ((hany _).map (R := fun _ => True) fun _ _ => trivial).bind fun e _ => hcopy e
  · exact (Always.pure (Q := fun _ => True) trivial).bind fun e _ => hcopy e

end Sourced

end Base

/-! ## The verb -/

/-- The name has no `..` and leads down a side on which it meets no link, except one in which it
ends. -/
structure Disk.Direct (d : Disk) (side : Location) (name : String) : Prop where
  down : Descends (Path.mk name).steps
  way : ∀ l, l <+: stepNames (Path.mk name).steps → l ≠ stepNames (Path.mk name).steps →
    d.kind? (side ++ l) ≠ some .symlink
  last : (Path.mk name).EndsInName ∨
    d.kind? (side ++ stepNames (Path.mk name).steps) ≠ some .symlink

instance (d : Disk) (side : Location) (name : String) : Decidable (d.Direct side name) :=
  decidable_of_iff (Step.up ∉ (Path.mk name).steps ∧
      (∀ l ∈ (stepNames (Path.mk name).steps).inits, l ≠ stepNames (Path.mk name).steps →
        d.kind? (side ++ l) ≠ some .symlink) ∧
      ((Path.mk name).EndsInName ∨
        d.kind? (side ++ stepNames (Path.mk name).steps) ≠ some .symlink))
    ⟨fun ⟨down, way, last⟩ => ⟨Path.descends_iff.2 down,
        fun l hl => way l ((List.mem_inits _ _).2 hl), last⟩,
      fun h => ⟨Path.descends_iff.1 h.down, fun l hl => h.way l ((List.mem_inits _ _).1 hl), h.last⟩⟩

namespace Base.Sourced

variable {b : Base} {u : Disk} {env : Environment} {name : String} {arguments : List String}

theorem copyNamed (hu : u.IsTree) (fits : b.Fits env)
    (direct : (Path.mk name).isAbsolute = false → u.Direct (b.onSide .lhs []) name) :
    Always (b.Sourced env.sink u) (Verb.copyNamed env name) fun _ => True := by
  unfold Verb.copyNamed
  refine (Always.ask (Q := fun _ => (Path.mk name).isAbsolute = false) fun d x h hx => ?_).bind
    fun _ relative => ?_
  · rw [Verb.requireRelative] at hx
    split at hx
    · cases hx
    · next hrel => exact Bool.eq_false_iff.2 hrel
  have direct := direct relative
  have hside : ∀ l, b.onSide .lhs [] ++ l = b.onSide .lhs l := fun l => (b.onSide_append .lhs [] l).symm
  have hs := fits.resolve .lhs relative direct.down
  have ht := fits.resolve .rhs relative direct.down
  have way : ∀ l, l <+: stepNames (Path.mk name).steps → l ≠ stepNames (Path.mk name).steps →
      u.kind? (b.onSide .lhs l) ≠ some .symlink := fun l hl hne => hside l ▸ direct.way l hl hne
  have final : (env.resolve .lhs name).EndsInName ∧ (env.resolve .rhs name).LastIsName ∨
      u.kind? (b.onSide .lhs (stepNames (Path.mk name).steps)) ≠ some .symlink :=
    direct.last.imp (fun h => ⟨h.join relative, h.last.join relative⟩) fun h => hside _ ▸ h
  simp only
  refine (Always.named (Always.ask (Q := fun _ => True) fun _ _ _ _ => trivial) _ _).bind
    fun x _ => ?_
  refine (write rfl).bind fun _ _ => ?_
  split
  · exact copyTree hu ht hs way final
  · exact (copyEntry hu ht hs way final).post fun _ _ => trivial

theorem copy (hu : u.IsTree) (fits : b.Fits env)
    (direct : ∀ name ∈ arguments, (Path.mk name).isAbsolute = false →
      u.Direct (b.onSide .lhs []) name) :
    Always (b.Sourced env.sink u) (Verb.copy env arguments) fun _ => True := by
  unfold Verb.copy
  split
  · refine (write rfl).bind fun _ _ => ?_
    refine copyTree (m := []) hu (fits.spells .rhs) (fits.spells .lhs)
      (fun l hl hne => absurd (List.prefix_nil.1 hl) hne) (.inl ?_)
    exact ⟨fits.endsInName .lhs, (fits.endsInName .rhs).last⟩
  · exact Always.forM fun name hname => copyNamed hu fits (direct name hname)

end Base.Sourced

end TwinTrees
