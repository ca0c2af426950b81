import TwinTrees.Proofs.Disk.Bits
import TwinTrees.Proofs.Tree.Copying

/-!
# The bits of the directories of a copy

The copy of a directory is made with the bits of the directory, and so it has those of them that a
directory can be made with, and the bit that is handed down to it. Where the place of the copy is not
there, every directory that is made on the way to it or in the copy is below the nearest directory that
is there, and has its bit from this one (`Transfer.Graded`). A directory in the copy is made only where
the one that it is in has been made before, and so with the bits of the directory of which it is the copy.
The bits of a directory survive the copy exactly if those that are withheld are what is handed down
(`Tree.copyTree_modes`).
-/

namespace TwinTrees

open TwinTrees.Action (Triple run_bind)

/-- A location further down on a way is at or below the next step of the way. -/
theorem concat_prefix_of_ne {l m p : Location} {n : Name} (h : l <+: m) (hne : l ≠ m)
    (next : l ++ [n] <+: p) (hm : m <+: p) : l ++ [n] <+: m := by
  refine List.prefix_of_prefix_length_le next hm ?_
  rw [List.length_append]
  exact h.length_le.lt_of_ne fun hlen => hne (h.eq_of_length hlen)

namespace Transfer

variable {c : Transfer} {u d : Disk} {top dir more m : Location} {n : Name} {inherited mode : Mode}
  {made made' : Set Location} {φ : Location → Option Mode} {t : Time} {e : Entry}
  {p target source : Path}

/-- The nearest entry above the place that is there, and the bit that it hands down. -/
structure Nearest (c : Transfer) (u : Disk) (top : Location) (inherited : Mode) : Prop where
  above : ∃ n, top ++ [n] <+: c.place ∧ u.node? (top ++ [n]) = none
  there : ∃ e, u.get? top = some e ∧ inherited = e.mode &&& inheritedBit

/-- The bits of the directories while the copy is made: those on the way to the place have the bit that
is handed down, those in the copy have the bits of what they are copies of, and the copies of some are
there. -/
structure Graded (c : Transfer) (u : Disk) (top : Location) (inherited : Mode) (made : Set Location)
    (φ : Location → Option Mode) : Prop where
  inherits : ∀ l bits, top <+: l → l <+: c.place ∨ c.place <+: l → φ l = some bits →
    bits &&& inheritedBit = inherited
  copies : ∀ m bits, φ (c.place ++ m) = some bits →
    ∃ bits₀, u.directoryBits? (c.source.location ++ m) = some bits₀ ∧ bits = madeBits bits₀ inherited
  there : ∀ m ∈ made, φ (c.place ++ m) ≠ none

theorem Graded.mono (h : c.Graded u top inherited made φ) (hsub : ∀ m ∈ made', m ∈ made) :
    c.Graded u top inherited made' φ := { h with there := fun m hm => h.there m (hsub m hm) }

namespace Nearest

theorem inherited_and (near : c.Nearest u top inherited) : inherited &&& inheritedBit = inherited := by
  obtain ⟨e, -, rfl⟩ := near.there
  exact handedDown_and _

/-- Nothing is at the place or below it. -/
theorem free_of_place (near : c.Nearest u top inherited) (hu : c.Ready u) (m : Location) :
    u.node? (c.place ++ m) = none := by
  obtain ⟨n, hn, free⟩ := near.above
  obtain ⟨rest, hrest⟩ := hn
  by_contra hne
  rw [← hrest, List.append_assoc] at hne
  exact hu.source.tree.node?_ne_none_of_append hne free

theorem graded (near : c.Nearest u top inherited) (hu : c.Ready u) :
    c.Graded u top inherited ∅ u.directoryBits? where
  inherits l bits htop hl hbits := by
    obtain ⟨n, hn, free⟩ := near.above
    obtain ⟨e, he, rfl⟩ := near.there
    obtain ⟨e', he', hnode, rfl⟩ := Disk.directoryBits?_eq_some_iff.1 hbits
    by_cases heq : top = l
    · subst heq
      cases he.symm.trans he'
      rfl
    · -- whatever is further down on the way or in the place is below what is missing
      obtain ⟨rest, rfl⟩ : top ++ [n] <+: l := hl.elim (concat_prefix_of_ne htop heq hn) hn.trans
      exact absurd free (hu.source.tree.node?_ne_none_of_append
        (Disk.node?_ne_none_of_eq (Disk.node?_of_get? he')))
  copies m bits hbits := by
    have isDir := Disk.isDir_of_directoryBits? hbits
    rw [Disk.IsDir, near.free_of_place hu] at isDir
    cases isDir
  there := nofun

end Nearest

/-- A directory is made on the way to the place, or as the copy of one. -/
theorem Graded.addDirectory (h : c.Graded u top inherited made d.directoryBits?)
    (near : c.Nearest u top inherited) (isDir : d.IsDir dir) (htop : top <+: dir)
    (hway : dir ++ [n] <+: c.place ∨ c.place <+: dir ++ [n])
    (hmode : ∀ m, dir ++ [n] = c.place ++ m →
      u.directoryBits? (c.source.location ++ m) = some mode) :
    c.Graded u top inherited made
      (d.addEntry t dir n .directory (d.directoryMode dir mode)).directoryBits? := by
  have hdir : dir <+: c.place ∨ c.place <+: dir := by
    obtain hway | hway := hway
    · exact .inl ((List.prefix_append _ _).trans hway)
    · obtain heq | hway := List.prefix_concat_iff.1 hway
      · exact .inl ⟨[n], heq.symm⟩
      · exact .inr hway
  have hnew : d.directoryMode dir mode = madeBits mode inherited := by
    obtain ⟨bits, hbits⟩ := Option.ne_none_iff_exists'.1
      (mt Disk.directoryBits?_eq_none_iff.1 (not_not_intro isDir))
    rw [Disk.directoryMode_eq hbits, h.inherits dir bits htop hdir hbits]
  refine ⟨fun l bits hl hplace hbits => ?_, fun m bits hbits => ?_, fun m hm => ?_⟩
  · rw [Disk.directoryBits?_addEntry_directory] at hbits
    split at hbits
    · cases hbits
      rw [hnew, madeBits_and_inheritedBit near.inherited_and]
    · exact h.inherits l bits hl hplace hbits
  · rw [Disk.directoryBits?_addEntry_directory] at hbits
    split at hbits
    · next heq =>
      cases hbits
      exact ⟨mode, hmode m heq.symm, hnew⟩
    · exact h.copies m bits hbits
  · rw [Disk.directoryBits?_addEntry_directory]
    split
    · nofun
    · exact h.there m hm

/-! ## Making directories -/

/-- The copy is going on, and the directories of it that are there have their bits. -/
def Going (c : Transfer) (u : Disk) (top : Location) (inherited : Mode) (made : Set Location)
    (d : Disk) : Prop :=
  c.Copied u ∅ d ∧ c.Graded u top inherited made d.directoryBits?

section Making

variable (hu : c.Ready u) (near : c.Nearest u top inherited)
include hu near

/-- While the copies of the directories above an entry are there, a directory that is made for it is
made on the way to the place or as its copy. -/
theorem making_going (hmore : more <+: c.goal ++ m)
    (dirs : ∀ k, k <+: m → c.goal ++ k <+: more → u.IsDir (c.source.location ++ k))
    (hmode : more = c.goal ++ m → u.directoryBits? (c.source.location ++ m) = some mode) :
    c.target.Making mode more (c.Going u top inherited {k | k <+: m ∧ k ≠ m}) := by
  have copying : c.target.Making mode more (c.Copied u ∅) := making hu hmore dirs
  refine ⟨fun d h => copying.stands d h.1, fun d h => copying.noLink d h.1,
    fun t d above n h hway isName isDir free =>
      ⟨copying.made t d above n h.1 hway isName isDir free,
        h.2.addDirectory near isDir ?_ ?_ fun k hk => ?_⟩⟩
  all_goals
    have hplace : c.target.location ++ above ++ [n] <+: c.place ++ m := by
      rw [place, List.append_assoc, List.append_assoc, List.prefix_append_right_inj]
      exact hway.trans hmore
  · obtain ⟨n', hn', -⟩ := near.above
    obtain ⟨e, he, -⟩ := near.there
    have htop : top <+: c.place ++ m :=
      ((List.prefix_append _ _).trans hn').trans (List.prefix_append _ _)
    refine (List.prefix_or_prefix_of_prefix htop ((List.prefix_append _ _).trans hplace)).elim id
      fun hdir => ?_
    by_cases heq : c.target.location ++ above = top
    · rw [heq]
    · -- what is made would be above the nearest entry that is there
      obtain ⟨rest, rfl⟩ := concat_prefix_of_ne hdir heq hplace htop
      have there := h.1.node?_of_some hu (Disk.node?_of_get? he)
      exact absurd free (h.1.tree.node?_ne_none_of_append (Disk.node?_ne_none_of_eq there))
  · exact List.prefix_or_prefix_of_prefix hplace (List.prefix_append _ _)
  · have hkm : k <+: m := by rwa [hk, List.prefix_append_right_inj] at hplace
    by_cases heq : k = m
    · subst heq
      rw [place, List.append_assoc, List.append_assoc] at hk
      rw [List.append_cancel_left hk] at hway
      exact hmode (hmore.eq_of_length_le hway.length_le)
    · have there := h.2.there k ⟨hkm, heq⟩
      rw [← hk] at there
      exact absurd (Disk.directoryBits?_eq_none_iff.2 (Disk.not_isDir_of_free free)) there

/-- The copy of a directory is made. -/
theorem makeDirectories_going (hp : c.target.Spells p (c.goal ++ m))
    (hmode : u.directoryBits? (c.source.location ++ m) = some mode) :
    Triple (c.Going u top inherited {k | k <+: m ∧ k ≠ m}) (Tree.makeDirectories p mode)
      fun _ => c.Going u top inherited {k | k <+: m} := by
  have hne : c.goal ++ m ≠ [] := by
    intro hnil
    have free := near.free_of_place hu []
    rw [place, (List.append_eq_nil_iff.1 hnil).1, List.append_nil, List.append_nil] at free
    exact Disk.not_isDir_of_free free hu.target.isDir
  have making := making_going hu near List.prefix_rfl
    (fun k hk _ => isDir_of_prefix hu (Disk.isDir_of_directoryBits? hmode) hk) fun _ => hmode
  refine (making.isDir (fun d h => h.1.working hu) hp hne).post fun _ d h => ?_
  obtain ⟨⟨copied, graded⟩, isDir, -⟩ := h
  refine ⟨copied, { graded with there := fun k hk => ?_ }⟩
  by_cases heq : k = m
  · rw [heq, place, List.append_assoc]
    exact mt Disk.directoryBits?_eq_none_iff.1 (not_not_intro isDir)
  · exact graded.there k ⟨hk, heq⟩

/-- What an entry is to be in is there, so that no directory is made for it. -/
theorem makeParent_going (hp : c.target.Spells p (c.goal ++ (more ++ [n])))
    (there : u.node? (c.source.location ++ (more ++ [n])) ≠ none) :
    Triple (c.Going u top inherited {k | k <+: more ++ [n] ∧ k ≠ more ++ [n]}) (Tree.makeParent p)
      fun _ => c.Going u top inherited {k | k <+: more ++ [n] ∧ k ≠ more ++ [n]} := by
  unfold Tree.makeParent
  cases hparent : p.parent? with
  | none => exact Triple.pure fun _ => id
  | some above =>
    rw [← List.append_assoc] at hp
    have making : c.target.Making Tree.directoryMode (c.goal ++ more)
        (c.Going u top inherited {k | k <+: more ++ [n] ∧ k ≠ more ++ [n]}) := by
      refine making_going hu near ((List.prefix_append_right_inj _).2 (List.prefix_append _ _))
        (fun k hk hk' => isDir_above hu there hk ?_) fun heq => ?_
      · rintro rfl
        exact absurd hk'.length_le (by simp)
      · exact absurd (List.append_cancel_left heq) (by simp)
    exact ((making.makeDirectories (hp.parent hparent)).triple.post fun _ _ h => h.1).named _ _

end Making

/-! ## Making links and files -/

/-- Making a link leaves the directories their bits. -/
theorem makeLink_bits (P : (Location → Option Mode) → Prop) (old p : Path) :
    Triple (fun d => P d.directoryBits?)
      (Action.change fun t d => d.makeLink t old p : Action IoError Unit)
      fun _ d => P d.directoryBits? := by
  refine Triple.change fun t d d' h hmake => ?_
  obtain ⟨dir, n, free, rfl⟩ := Disk.of_makeLink hmake
  rwa [Disk.directoryBits?_addEntry free.free Node.noConfusion]

/-- Copying a file leaves the directories their bits. -/
theorem copyFile_bits (P : (Location → Option Mode) → Prop) (target source : Path) (size : Nat) :
    Triple (fun d => P d.directoryBits?) (Tree.copyFile target source size)
      fun _ d => P d.directoryBits? := by
  unfold Tree.copyFile
  refine Triple.bind (Q := fun _ d => P d.directoryBits?)
    (Triple.named (Triple.ask fun d x h _ => h) _ _) fun input => ?_
  refine Triple.bind (Q := fun _ d => P d.directoryBits?)
    (Triple.named (Triple.request fun t d f d' h hopen => ?_) _ _) fun copy => ?_
  · obtain ⟨dir, n, -, -, ⟨free, -, rfl⟩ | ⟨bytes, -, rfl⟩⟩ := Disk.of_openOrCreate hopen
    · have hbits : (d.addFile t dir n Tree.fileMode).directoryBits? = d.directoryBits? :=
        Disk.directoryBits?_addEntry free.free Node.noConfusion
      rwa [hbits]
    · rwa [if_pos rfl, Disk.directoryBits?_store]
  refine Triple.bind (Q := fun _ d => P d.directoryBits?) (Triple.ask fun d x h _ => h) fun bytes => ?_
  refine Triple.bind (Q := fun _ d => P d.directoryBits?)
    (Triple.change fun t d d' h happend => ?_) fun _ => ?_
  · cases happend
    rwa [Disk.append, Disk.directoryBits?_store]
  · split
    · exact Triple.throw _
    · exact Triple.pure fun _ => id

/-! ## Copying entries -/

section Entries

variable (hu : c.Ready u) (near : c.Nearest u top inherited)
include hu near

/-- An entry is copied; if it is a directory, the copy of it is there then. -/
theorem copyEntry_going (hp : c.target.Spells target (c.goal ++ (more ++ [n])))
    (hget : u.get? (c.source.location ++ (more ++ [n])) = some e) (ends : target.LastIsName)
    (hs : c.source.Spells source (more ++ [n])) (hsource : source.EndsInName) :
    Triple (c.Going u top inherited {k | k <+: more ++ [n] ∧ k ≠ more ++ [n]})
      (Tree.copyEntry target source) fun _ =>
        c.Going u top inherited {k | k <+: more ++ [n] ∧ u.IsDir (c.source.location ++ k)} := by
  have there : u.node? (c.source.location ++ (more ++ [n])) ≠ none :=
    Disk.node?_ne_none_of_eq (Disk.node?_of_get? hget)
  unfold Tree.copyEntry
  refine Triple.bind (Q := fun x d => x.2 = e ∧
      c.Going u top inherited {k | k <+: more ++ [n] ∧ k ≠ more ++ [n]} d)
    (Triple.named (Triple.ask fun d x h hlook => ?_) _ _) fun x => Triple.given (fun _ h => h.1) ?_
  · exact ⟨h.1.entry_of_lookAt hu hs hsource hget hlook, h⟩
  intro hx
  simp only [hx]
  have hleaf : ∀ d, c.Copied u (insert (more ++ [n]) ∅) d ∧
      c.Graded u top inherited {k | k <+: more ++ [n] ∧ k ≠ more ++ [n]} d.directoryBits? →
        e.node ≠ .directory →
          c.Going u top inherited {k | k <+: more ++ [n] ∧ u.IsDir (c.source.location ++ k)} d := by
    intro d h leaf
    refine ⟨h.1.mono fun m hm => .inl (.inr hm), h.2.mono fun k hk => ⟨hk.1, ?_⟩⟩
    rintro rfl
    have isDir := hk.2
    rw [Disk.IsDir, Disk.node?_of_get? hget] at isDir
    exact leaf (Option.some.inj isDir)
  cases hnode : e.node with
  | directory =>
    exact ((makeDirectories_going hu near hp
      (Disk.directoryBits?_eq_some_iff.2 ⟨e, hget, hnode, rfl⟩)).named _ _).mono (fun _ h => h.2)
      fun _ d h => ⟨h.1, h.2.mono fun k hk => hk.1⟩
  | symlink old =>
    refine ((makeParent_going hu near hp there).pre fun _ h => h.2).bind fun _ => ?_
    have hmake : Triple (c.Copied u ∅) _ _ :=
      (makeLink hu hp hget hnode ends).succeeds
    refine Triple.named ((hmake.and (makeLink_bits _ old target)).post fun _ d h => ?_) _ _
    exact hleaf d h (by rw [hnode]; exact Node.noConfusion)
  | file id bytes =>
    refine ((makeParent_going hu near hp there).pre fun _ h => h.2).bind fun _ => ?_
    have hcopy : Triple (c.Copied u ∅) _ _ :=
      (copyFile hu hp hget hs hnode).succeeds
    refine (hcopy.and (copyFile_bits _ target source bytes.size)).post fun _ d h => ?_
    exact hleaf d h (by rw [hnode]; exact Node.noConfusion)

/-- The directory itself is copied. -/
theorem copyRoot_going (hp : c.target.Spells target c.goal) :
    Triple (c.Going u top inherited ∅) (Tree.copyEntry target c.source.path) fun _ =>
      c.Going u top inherited {k | k <+: []} := by
  unfold Tree.copyEntry
  refine Triple.bind (Q := fun x d =>
      (x.2.node = .directory ∧ u.directoryBits? (c.source.location ++ []) = some x.2.mode) ∧
        c.Going u top inherited ∅ d)
    (Triple.named (Triple.ask fun d x h hlook => ?_) _ _) fun x => Triple.given (fun _ h => h.1) ?_
  · obtain ⟨hl, isDir⟩ := h.1.location_of_find hu hlook
    refine ⟨⟨isDir, Disk.directoryBits?_eq_some_iff.2 ⟨x.2, ?_, isDir, rfl⟩⟩, h⟩
    rw [← h.1.get?_source hu, List.append_nil, ← hl]
    exact Disk.get?_of_lookAt hlook
  rintro ⟨hnode, hmode⟩
  simp only [hnode]
  exact ((makeDirectories_going hu near ((List.append_nil c.goal).symm ▸ hp) hmode).named _ _).pre
    fun _ h => ⟨h.2.1, h.2.2.mono fun k hk => absurd (List.prefix_nil.1 hk.1) hk.2⟩

/-- A directory is copied with all that is in it. -/
theorem copyLevels_going (root : Path) (depth : Nat) {copySelf : Action CommandError Unit}
    {P : Disk → Prop} (hp : c.target.Spells target (c.goal ++ more)) (hs : c.source.Spells source more)
    (isDir : u.IsDir (c.source.location ++ more))
    (found : ∀ d, c.Started u d → ∀ l e, d.find true source = .ok (l, e) →
      l = c.source.location ++ more)
    (started : ∀ d, P d → c.Started u d)
    (hself : Triple P copySelf fun _ => c.Going u top inherited {k | k <+: more}) :
    Triple P (Tree.copyLevels root depth target source copySelf) fun _ =>
      c.Going u top inherited {k | k <+: more} := by
  induction depth generalizing more target source copySelf P with
  | zero => exact hself.bind fun _ => Triple.throw _
  | succ depth ih =>
    rw [Tree.copyLevels]
    refine Triple.bind (Q := fun names d => (∀ list, names = .ok list →
      u.Lists (c.source.location ++ more) list) ∧ P d)
      (Triple.ask ?_) fun names => Triple.given (fun _ h => h.1) fun hlists => ?_
    · rintro d _ h ⟨⟩
      exact ⟨fun list hlist => (started d h).lists hu (found d (started d h)) hlist, h⟩
    refine (hself.pre fun _ h => h.2).bind fun _ => ?_
    cases names with
    | error fault => exact Triple.throw _
    | ok names =>
      have lists : u.Lists (c.source.location ++ more) (Tree.sortedNames names) :=
        (hlists names rfl).perm (List.mergeSort_perm ..)
      refine Triple.forM_keeps fun x hx => ?_
      obtain ⟨n, kind⟩ := x
      obtain ⟨node, hnode, hkind⟩ := Option.map_eq_some_iff.1 ((lists.mem_iff n kind).1 hx)
      have isName := hu.source.tree.named (l := c.source.location ++ more)
        (Disk.node?_ne_none_of_eq hnode)
      rw [List.append_assoc] at hnode
      obtain ⟨e, he, rfl⟩ := Disk.node?_eq_some_iff.1 hnode
      have hs' := hs.inside isName
      have hp' := hp.inside isName
      rw [List.append_assoc] at hp'
      have ends : (Tree.inside target n).EndsInName := Path.endsInName_inside isName
      have hcopy := (copyEntry_going hu near hp' he ends.last hs'
        (Path.endsInName_inside isName)).pre fun d (h : c.Going u top inherited {k | k <+: more} d) =>
          ⟨h.1, h.2.mono fun k hk => (List.prefix_concat_iff.1 hk.1).resolve_left hk.2⟩
      simp only
      split
      · next hdir =>
        have isDir' := Disk.isDir_of_get? he (Disk.kind_eq_directory_iff.1 (hkind.trans hdir))
        exact (ih hp' hs' isDir' (fun d h => hs'.location_of_find (h.source_stands hu) (by simp)
          ((h.node?_source hu _).trans isDir')) (fun _ h => h.1.toStarted)
          (hcopy.post fun _ d h => ⟨h.1, h.2.mono fun k hk =>
            ⟨hk, isDir_of_prefix hu isDir' hk⟩⟩)).post
          fun _ d h => ⟨h.1, h.2.mono fun k hk => hk.trans (List.prefix_append _ _)⟩
      · exact hcopy.post fun _ d h => ⟨h.1, h.2.mono fun k hk =>
          ⟨hk.trans (List.prefix_append _ _), isDir_of_prefix hu isDir hk⟩⟩

/-- The directory at the base is copied with all that is in it. -/
theorem copyAll_going (hp : c.target.Spells p c.goal) (depth : Nat) :
    Triple (c.Going u top inherited ∅) (Tree.copyLevels c.source.path depth p c.source.path
      (Tree.copyEntry p c.source.path)) fun _ => c.Going u top inherited {k | k <+: []} :=
  copyLevels_going hu near c.source.path depth ((List.append_nil c.goal).symm ▸ hp) (.base c.source)
    ((List.append_nil c.source.location).symm ▸ hu.source.isDir)
    (fun _ h _ _ hfind => (h.location_of_find hu hfind).1.trans (List.append_nil _).symm)
    (fun _ h => h.1.toStarted) (copyRoot_going hu near hp)

end Entries

/-- When the copy is done, the directories in it are the copies of directories. -/
theorem Graded.directoryBits?_eq (h : c.Graded u top inherited made d.directoryBits?)
    (copied : c.Copied u Set.univ d) (m : Location) :
    d.directoryBits? (c.place ++ m) =
      (u.directoryBits? (c.source.location ++ m)).map (madeBits · inherited) := by
  cases hbits : d.directoryBits? (c.place ++ m) with
  | some bits =>
    obtain ⟨bits₀, hsource, rfl⟩ := h.copies m bits hbits
    rw [hsource, Option.map_some]
  | none =>
    have notDir : ¬ u.IsDir (c.source.location ++ m) := fun isDir => by
      obtain ⟨node, hnode, hshown⟩ := copied.same m trivial .directory isDir
      obtain rfl := Node.shown_eq_directory_iff.1 hshown
      exact Disk.directoryBits?_eq_none_iff.1 hbits hnode
    rw [Disk.directoryBits?_eq_none_iff.2 notDir, Option.map_none]

end Transfer

/-- Above what is missing something is there that lacks what comes next. -/
theorem Disk.IsTree.exists_nearest {d : Disk} {l : Location} (tree : d.IsTree)
    (free : d.node? l = none) :
    ∃ top n e, top ++ [n] <+: l ∧ d.get? top = some e ∧ d.node? (top ++ [n]) = none := by
  induction l using List.reverseRecOn with
  | nil => cases free.symm.trans tree.root
  | append_singleton l n ih =>
    cases he : d.get? l with
    | some e => exact ⟨l, n, e, List.prefix_rfl, he, free⟩
    | none =>
      obtain ⟨top, k, e, hk, he, hfree⟩ := ih (Disk.node?_eq_none_iff.2 he)
      exact ⟨top, k, e, hk.trans (List.prefix_append _ _), he, hfree⟩

namespace Tree

variable {w w' : World} {target source : Path} {src place : Location} {e : Entry}

/-- The bits of the copies of directories, if the nearest directory that was there above the place is
known. -/
theorem directoryBits?_of_copyTree {top : Location} {n : Name} {above : Entry} (tree : w.disk.IsTree)
    (working : w.disk.IsDir w.disk.workingDirectory) (real : w.disk.lookAt source = .ok (src, e))
    (isDir : e.node = .directory)
    (resolves : w.disk.Resolves (target.startFrom w.disk.workingDirectory) target.steps place)
    (hn : top ++ [n] <+: place) (hget : w.disk.get? top = some above)
    (hfree : w.disk.node? (top ++ [n]) = none) (notInside : ¬ src <+: place)
    (hrun : (copyTree target source).run w = (.ok (), w')) (m : Location) :
    w'.disk.directoryBits? (place ++ m) =
      (w.disk.directoryBits? (src ++ m)).map (madeBits · (above.mode &&& inheritedBit)) := by
  have vacant : ∀ l, place <+: l → w.disk.node? l = none := by
    intro l hl
    obtain ⟨more, rfl⟩ := hn.trans hl
    by_contra hne
    exact tree.node?_ne_none_of_append hne hfree
  have there : w.disk.node? src ≠ none :=
    Disk.node?_ne_none_of_eq (Disk.node?_of_get? (Disk.get?_of_lookAt real))
  rw [run_copyTree_of_directory real isDir] at hrun
  obtain reaches | stuck := resolves.reaches_or_stuck tree (tree.isDir_startFrom working target)
    fun n => Path.mem_steps_name
  · obtain ⟨c, rfl, rfl, rfl, hu, hp⟩ := Transfer.exists_of_reaches tree working real isDir reaches
      (fun l hl => .inl (vacant l hl)) notInside fun hsrc => there (vacant src hsrc)
    have near : c.Nearest w.disk top (above.mode &&& inheritedBit) :=
      ⟨⟨n, hn, hfree⟩, ⟨above, hget, rfl⟩⟩
    have copied := (Transfer.copyAll hu hp.withSlash pathLimit).succeeds w () w' hu.copied hrun
    have going := Transfer.copyAll_going hu near hp.withSlash pathLimit w () w'
      ⟨hu.copied, near.graded hu⟩ hrun
    exact going.2.directoryBits?_eq copied m
  · rw [← Path.startFrom_join (q := ⟨""⟩) rfl, ← target.steps_withSlash] at stuck
    exact ((leaves_of_stuck tree working real isDir stuck source pathLimit).succeeds w () w' rfl
      hrun).elim

/-- When a directory has been copied to a place that was not there, each directory in it has a copy that
has those bits of it that a directory can be made with, and the bit that the nearest directory that was
there above the place hands down. So the directories keep their bits exactly if those that are withheld
are, in each of them, what is handed down. -/
theorem copyTree_modes (tree : w.disk.IsTree) (working : w.disk.IsDir w.disk.workingDirectory)
    (real : w.disk.lookAt source = .ok (src, e)) (isDir : e.node = .directory)
    (resolves : w.disk.Resolves (target.startFrom w.disk.workingDirectory) target.steps place)
    (free : w.disk.node? place = none) (notInside : ¬ src <+: place)
    (hrun : (copyTree target source).run w = (.ok (), w')) :
    ∃ top n above, top ++ [n] <+: place ∧ w.disk.get? top = some above ∧
      w.disk.node? (top ++ [n]) = none ∧
      (∀ m, w'.disk.directoryBits? (place ++ m) =
        (w.disk.directoryBits? (src ++ m)).map (madeBits · (above.mode &&& inheritedBit))) ∧
      ((∀ m, (w'.disk.directoryBits? (place ++ m)).map (· &&& allBits) =
          (w.disk.directoryBits? (src ++ m)).map (· &&& allBits)) ↔
        ∀ m bits, w.disk.directoryBits? (src ++ m) = some bits →
          bits &&& withheldBits = above.mode &&& inheritedBit) := by
  obtain ⟨top, n, above, hn, hget, hfree⟩ := tree.exists_nearest free
  have hmade := directoryBits?_of_copyTree tree working real isDir resolves hn hget hfree notInside hrun
  refine ⟨top, n, above, hn, hget, hfree, hmade, forall_congr' fun m => ?_⟩
  rw [hmade]
  cases w.disk.directoryBits? (src ++ m) with
  | none => simp
  | some bits => simpa using madeBits_eq_iff (handedDown_and _)

/-- Below a directory that hands down its bit, directories that have the bit keep all their bits. -/
theorem copyTree_modes_kept :
    let entry : Node → Mode → Entry := fun node mode => ⟨node, mode, ⟨0, 0⟩, ⟨0, 0⟩⟩
    let d : Disk := ⟨[([], entry .directory 0o755), (["s".toList], entry .directory 0o2700),
      (["s".toList, "e".toList], entry .directory 0o3751),
      (["s".toList, "f".toList], entry (.file 0 #[1]) 0o600),
      (["q".toList], entry .directory 0o2777)], 1, []⟩
    let w : World := ⟨⟨d, []⟩, .seeded 0, fun n => ⟨n + 1, 0⟩, 0⟩
    let place : Location := ["q".toList, "c".toList]
    (d.IsTree ∧ d.IsDir d.workingDirectory ∧
      (∃ e, d.lookAt ⟨"/s"⟩ = .ok (["s".toList], e) ∧ e.node = .directory) ∧
      d.Resolves ((Path.mk "/q/c").startFrom d.workingDirectory) (Path.mk "/q/c").steps place ∧
      d.node? place = none ∧ ¬ ["s".toList] <+: place) ∧
      ∃ w', (copyTree ⟨"/q/c"⟩ ⟨"/s"⟩).run w = (.ok (), w') ∧
        w'.disk.directoryBits? place = some 0o2700 ∧
        w'.disk.directoryBits? (place ++ ["e".toList]) = some 0o3751 ∧
        w'.disk.directoryBits? (place ++ ["f".toList]) = none := by
  intro entry d w place
  have tree : d.IsTree := .of_entries (by decide) rfl (by decide)
  have hlook : d.lookAt ⟨"/s"⟩ = .ok (["s".toList], entry .directory 0o2700) :=
    eq_ok_of_toOption (by decide +kernel)
  have resolves : d.Resolves ((Path.mk "/q/c").startFrom d.workingDirectory) (Path.mk "/q/c").steps
      place := by
    rw [show (Path.mk "/q/c").steps = [.name "q".toList, .name "c".toList] by decide +kernel]
    exact .name (Disk.ne_symlink_of_kind? (by decide +kernel))
      (.name (Disk.ne_symlink_of_kind? (by decide +kernel)) .nil)
  obtain ⟨w', hrun⟩ : ∃ w', (copyTree ⟨"/q/c"⟩ ⟨"/s"⟩).run w = (.ok (), w') := by
    let copy : Path := (Path.mk "/q/c").join ⟨""⟩
    let v : World := ((copyEntry copy ⟨"/s"⟩).run w).2
    have hlist : w.disk.list ⟨"/s"⟩ = .ok [("e".toList, .directory), ("f".toList, .file)] :=
      eq_ok_of_toOption (by decide +kernel)
    have hlist' : v.disk.list (inside ⟨"/s"⟩ "e".toList) = .ok [] :=
      eq_ok_of_toOption (by decide +kernel)
    rw [run_copyTree_of_directory hlook rfl, show pathLimit = 4094 + 1 + 1 from rfl,
      run_copyLevels_of_sorted hlist (by decide +kernel) (Action.run_eq_of_toOption (by decide +kernel)),
      List.forM, run_bind, if_pos rfl,
      run_copyLevels_of_sorted hlist' (by decide +kernel) (Action.run_eq_of_toOption (by decide +kernel))]
    exact Action.exists_run_of_toOption (by decide +kernel)
  obtain ⟨top, n, above, hn, hget, hfree, hmade, -⟩ := copyTree_modes (w := w) tree rfl hlook rfl
    resolves (by decide +kernel) (by decide) hrun
  obtain rfl : above = entry .directory 0o2777 := by
    obtain heq | hshort := List.prefix_concat_iff.1 (show top ++ [n] <+: ["q".toList] ++ ["c".toList]
      from hn)
    · obtain ⟨rfl, -⟩ := List.append_inj' heq rfl
      exact (Option.some.inj hget).symm
    · obtain rfl : top = [] := List.eq_nil_of_length_eq_zero (by simpa using hshort.length_le)
      rw [hshort.eq_of_length rfl] at hfree
      exact absurd hfree (by decide +kernel)
  refine ⟨⟨tree, rfl, ⟨_, hlook, rfl⟩, resolves, by decide +kernel, by decide⟩, w', hrun, ?_⟩
  refine ⟨(hmade []).trans ?_, (hmade ["e".toList]).trans ?_, (hmade ["f".toList]).trans ?_⟩
  all_goals decide +kernel

/-- A directory that all may write does not keep its bits. -/
theorem copyTree_changes_modes :
    ¬ ∀ (w w' : World) (target source : Path) (src place : Location) (e : Entry), w.disk.IsTree →
      w.disk.IsDir w.disk.workingDirectory → w.disk.lookAt source = .ok (src, e) →
      e.node = .directory →
      w.disk.Resolves (target.startFrom w.disk.workingDirectory) target.steps place →
      w.disk.node? place = none → (copyTree target source).run w = (.ok (), w') →
      ∀ m, (w'.disk.directoryBits? (place ++ m)).map (· &&& allBits) =
        (w.disk.directoryBits? (src ++ m)).map (· &&& allBits) := by
  intro hkept
  let entry : Mode → Entry := fun mode => ⟨.directory, mode, ⟨0, 0⟩, ⟨0, 0⟩⟩
  let d : Disk := ⟨[([], entry 0o755), (["s".toList], entry 0o777)], 0, []⟩
  let w : World := ⟨⟨d, []⟩, .seeded 0, fun n => ⟨n + 1, 0⟩, 0⟩
  let copy : Path := (Path.mk "/c").join ⟨""⟩
  have hlook : d.lookAt ⟨"/s"⟩ = .ok (["s".toList], entry 0o777) := eq_ok_of_toOption (by decide +kernel)
  have resolves : d.Resolves ((Path.mk "/c").startFrom d.workingDirectory) (Path.mk "/c").steps
      ["c".toList] := by
    rw [show (Path.mk "/c").steps = [.name "c".toList] by decide +kernel]
    exact .name (Disk.ne_symlink_of_kind? (by decide +kernel)) .nil
  have hlist : w.disk.list ⟨"/s"⟩ = .ok [] := eq_ok_of_toOption (by decide +kernel)
  have hself : (copyEntry copy ⟨"/s"⟩).run w = (.ok (), ((copyEntry copy ⟨"/s"⟩).run w).2) :=
    Action.run_eq_of_toOption (by decide +kernel)
  have hrun : (copyTree ⟨"/c"⟩ ⟨"/s"⟩).run w = (.ok (), ((copyEntry copy ⟨"/s"⟩).run w).2) := by
    rw [run_copyTree_of_directory hlook rfl, show pathLimit = 4095 + 1 from rfl,
      run_copyLevels_of_sorted hlist .nil hself]
    rfl
  refine absurd (hkept w _ _ _ _ _ _ (.of_entries (by decide) rfl (by decide)) rfl hlook rfl resolves
    (by decide +kernel) hrun []) ?_
  decide +kernel

end Tree

end TwinTrees
