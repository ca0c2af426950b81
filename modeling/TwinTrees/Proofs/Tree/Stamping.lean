import TwinTrees.Proofs.Base.Stamping
import TwinTrees.Proofs.Disk.Nodes

/-!
# What giving trees one time changes

An entry that is given a time stays what it is, and so do all others (`Disk.Stamped`). What a walk
visits, and what the path of a visit names, therefore does not depend on what was given the time
before, nor on the order of the roots or of the entries in a directory: of each part of
`Tree.stampTrees` it can be said at the start whether it succeeds and which locations it hits
(`Tree.Stamps`). The locations that are hit are those at and below the roots at which there is no
link, since each of them is visited at a path that spells its names (`Base.surveys_walkDown`).
-/

namespace TwinTrees

open TwinTrees.Action (run_bind run_bind_ask)

variable {u d d' : Disk} {time : Time} {hit hit' : Location → Prop} {l : Location} {p q : Path}
  {kind : Kind}

/-- The entry with a time of access and modification. -/
def Entry.stamped (time : Time) (e : Entry) : Entry := { e with accessed := time, modified := time }

/-- The entries of `u` at the locations `hit` have been given the time, and that is all. -/
structure Disk.Stamped (u : Disk) (time : Time) (hit : Location → Prop) (d : Disk) : Prop where
  tree : d.IsTree
  nodes : Disk.SameNodes u d
  stamped : ∀ l, hit l → d.get? l = (u.get? l).map (Entry.stamped time)
  others : ∀ l, ¬ hit l → d.get? l = u.get? l

namespace Disk.Stamped

theorem refl (tree : u.IsTree) : Stamped u time (fun _ => False) u :=
  ⟨tree, .refl u, nofun, fun _ _ => rfl⟩

theorem setTimesAt (tree : u.IsTree) (l : Location) : Stamped u time (· = l) (u.setTimesAt l time) where
  tree := tree.update_of_node fun _ => rfl
  nodes := .setTimesAt u l time
  stamped m hm := by
    rw [Disk.setTimesAt, get?_update, if_pos hm]
    rfl
  others m hm := by rw [Disk.setTimesAt, get?_update, if_neg hm]

/-- To be given the time twice is the same as once. -/
theorem trans (h : Stamped u time hit d) (h' : Stamped d time hit' d') :
    Stamped u time (fun l => hit l ∨ hit' l) d' where
  tree := h'.tree
  nodes := h.nodes.trans h'.nodes
  stamped l hl := by
    by_cases hlast : hit' l
    · rw [h'.stamped l hlast]
      by_cases hfirst : hit l
      · rw [h.stamped l hfirst, Option.map_map]
        rfl
      · rw [h.others l hfirst]
    · rw [h'.others l hlast, h.stamped l (hl.resolve_right hlast)]
  others l hl := by
    rw [h'.others l fun h => hl (.inr h), h.others l fun h => hl (.inl h)]

theorem congr (h : Stamped u time hit d) (same : ∀ l, hit l ↔ hit' l) : Stamped u time hit' d where
  tree := h.tree
  nodes := h.nodes
  stamped l hl := h.stamped l ((same l).2 hl)
  others l hl := h.others l fun hit => hl ((same l).1 hit)

/-- Giving the time to the same entries again leaves the same, be it from the disk before or after. -/
theorem again {v : Disk} (h : Stamped u time hit d) (h' : Stamped v time hit d')
    (start : (∀ l, v.get? l = u.get? l) ∨ ∀ l, v.get? l = d.get? l) (l : Location) :
    d'.get? l = d.get? l := by
  by_cases hl : hit l
  · rw [h'.stamped l hl, h.stamped l hl]
    obtain hget | hget := start
    · rw [hget]
    · rw [hget, h.stamped l hl, Option.map_map]
      rfl
  · rw [h'.others l hl]
    obtain hget | hget := start
    · rw [hget, h.others l hl]
    · exact hget l

end Disk.Stamped

namespace Tree

/-- On each disk with the nodes of `u` the action succeeds if and only if `fine` holds, and then gives
the entries at the locations `hit` the time. -/
structure Stamps (u : Disk) (time : Time) (a : Action CommandError Unit) (fine : Prop)
    (hit : Location → Prop) : Prop where
  succeeds : ∀ w, w.disk.IsTree → Disk.SameNodes u w.disk → fine →
    ∃ w', a.run w = (.ok (), w') ∧ w.disk.Stamped time hit w'.disk
  fails : ∀ w, w.disk.IsTree → Disk.SameNodes u w.disk → ¬ fine → ∃ e w', a.run w = (.error e, w')

namespace Stamps

variable {a b : Action CommandError Unit} {fine fine' : Prop}

theorem congr (h : Stamps u time a fine hit) (hfine : fine ↔ fine') (same : ∀ l, hit l ↔ hit' l) :
    Stamps u time a fine' hit' where
  succeeds w tree nodes hf :=
    let ⟨w', hrun, hstamped⟩ := h.succeeds w tree nodes (hfine.2 hf)
    ⟨w', hrun, hstamped.congr same⟩
  fails w tree nodes hf := h.fails w tree nodes fun hf' => hf (hfine.1 hf')

theorem done : Stamps u time (return) True fun _ => False where
  succeeds w tree _ _ := ⟨w, rfl, .refl tree⟩
  fails _ _ _ hf := absurd trivial hf

theorem throw (e : CommandError) : Stamps u time (throw e) False fun _ => False where
  succeeds := nofun
  fails w _ _ _ := ⟨e, w, rfl⟩

theorem bind (h : Stamps u time a fine hit) (h' : Stamps u time b fine' hit') :
    Stamps u time (a >>= fun _ => b) (fine ∧ fine') fun l => hit l ∨ hit' l where
  succeeds w tree nodes hf := by
    obtain ⟨v, ha, hv⟩ := h.succeeds w tree nodes hf.1
    obtain ⟨w', hb, hw'⟩ := h'.succeeds v hv.tree (nodes.trans hv.nodes) hf.2
    exact ⟨w', by rw [run_bind, ha]; exact hb, hv.trans hw'⟩
  fails w tree nodes hf := by
    by_cases hfine : fine
    · obtain ⟨v, ha, hv⟩ := h.succeeds w tree nodes hfine
      obtain ⟨e, w', hb⟩ := h'.fails v hv.tree (nodes.trans hv.nodes) fun hfine' => hf ⟨hfine, hfine'⟩
      exact ⟨e, w', by rw [run_bind, ha]; exact hb⟩
    · obtain ⟨e, v, ha⟩ := h.fails w tree nodes hfine
      exact ⟨e, v, by rw [run_bind, ha]⟩

/-- A loop succeeds if all of its actions do, in whatever order. -/
theorem forM {α : Type} {f : α → Action CommandError Unit} {xs : List α} {fine : α → Prop}
    {hit : α → Location → Prop} (h : ∀ x ∈ xs, Stamps u time (f x) (fine x) (hit x)) :
    Stamps u time (xs.forM f) (∀ x ∈ xs, fine x) fun l => ∃ x ∈ xs, hit x l := by
  induction xs with
  | nil => exact done.congr (by simp) (by simp)
  | cons x xs ih =>
    exact ((h x List.mem_cons_self).bind (ih fun y hy => h y (List.mem_cons_of_mem x hy))).congr
      (by simp) (by simp)

end Stamps

/-- What a path names is given the time. -/
theorem stamps_stamp : Stamps u time (stamp time q) (∃ found, u.find true q = .ok found)
    fun l => ∃ e, u.find true q = .ok (l, e) where
  succeeds w tree nodes := by
    rintro ⟨⟨l, e⟩, hfound⟩
    have hfind := nodes.find true q
    rw [hfound] at hfind
    cases hd : w.disk.find true q with
    | error fault => rw [hd] at hfind; cases hfind
    | ok found =>
      rw [hd] at hfind
      obtain ⟨hlocation, -⟩ : Disk.SameNodes.SameFound found (l, e) := by cases hfind; assumption
      have hset : w.disk.setTimes q time = .ok (w.disk.setTimesAt found.1 time) := by
        unfold Disk.setTimes
        rw [hd]
        rfl
      refine ⟨{ Action.tick w with disk := w.disk.setTimesAt found.1 time }, ?_,
        (Disk.Stamped.setTimesAt tree found.1).congr fun m => ?_⟩
      · unfold stamp Action.named
        rw [Action.run_mapError, Action.run_change_ok hset]
        rfl
      · rw [hfound, hlocation]
        simp [eq_comm]
  fails w tree nodes hf := by
    have hfind := nodes.find true q
    cases hd : w.disk.find true q with
    | ok found =>
      rw [hd] at hfind
      cases hu : u.find true q with
      | error fault => rw [hu] at hfind; cases hfind
      | ok found' => exact absurd ⟨found', hu⟩ hf
    | error fault =>
      have hset : w.disk.setTimes q time = .error fault := by
        unfold Disk.setTimes
        rw [hd]
        rfl
      refine ⟨.io "adjtime" q fault, Action.tick w, ?_⟩
      unfold stamp Action.named
      rw [Action.run_mapError, Action.run_change, hset]
      rfl

/-- The visit has found no error, and there is something at its path if it is of the kind. -/
def IsFine (u : Disk) (kind : Kind) (visit : Except WalkError (Path × Kind)) : Prop :=
  ∃ q k, visit = .ok (q, k) ∧ (k = kind → ∃ found, u.find true q = .ok found)

/-- The visit is of the kind and its path leads to the location. -/
def HitsAt (u : Disk) (kind : Kind) (visit : Except WalkError (Path × Kind)) (l : Location) : Prop :=
  ∃ q e, visit = .ok (q, kind) ∧ u.find true q = .ok (l, e)

/-- An entry that a walk visits is given the time if it is of the kind. -/
theorem stamps_visit (kind : Kind) (p : Path) (visit : Except WalkError (Path × Kind)) :
    Stamps u time (match visit with
      | .error e => throw (CommandError.walk p e)
      | .ok (p, k) => if k = kind then stamp time p else return)
      (IsFine u kind visit) (HitsAt u kind visit) := by
  cases visit with
  | error e => exact (Stamps.throw _).congr (by simp [IsFine]) (by simp [HitsAt])
  | ok visit =>
    obtain ⟨q, k⟩ := visit
    simp only
    split
    · next hk => exact stamps_stamp.congr (by simp [IsFine, hk]) (by simp [HitsAt, hk])
    · next hk => exact Stamps.done.congr (by simp [IsFine, hk]) (by simp [HitsAt, hk])

/-- The entries of a kind that a walk visits are given the time. -/
theorem stamps_stampKind (tree : u.IsTree) (kind : Kind) (p : Path) :
    Stamps u time (stampKind time kind p) (∀ x ∈ u.walkDown p, IsFine u kind x)
      fun l => ∃ x ∈ u.walkDown p, HitsAt u kind x l := by
  have hvisits : ∀ visits : List (Except WalkError (Path × Kind)), Stamps u time (visits.forM _)
      (∀ x ∈ visits, IsFine u kind x) fun l => ∃ x ∈ visits, HitsAt u kind x l :=
    fun visits => Stamps.forM fun x _ => stamps_visit kind p x
  have hrun : ∀ w : World, (stampKind time kind p).run w =
      ((w.disk.walkDown p).forM _ : Action CommandError Unit).run w := run_bind_ask _ _
  constructor
  · intro w treeW nodes hfine
    have same := nodes.walkDown tree treeW p
    rw [hrun]
    obtain ⟨w', hrun', hstamped⟩ := (hvisits _).succeeds w treeW nodes
      fun x hx => hfine x ((same x).1 hx)
    exact ⟨w', hrun', hstamped.congr fun l => exists_congr fun x => and_congr_left fun _ => same x⟩
  · intro w treeW nodes hfine
    have same := nodes.walkDown tree treeW p
    rw [hrun]
    exact (hvisits _).fails w treeW nodes fun hall => hfine fun x hx => hall x ((same x).2 hx)

/-- Files first and then directories. -/
theorem stamps_stampTrees (tree : u.IsTree) (roots : List Path) : Stamps u time (stampTrees roots time)
    ((∀ p ∈ roots, ∀ x ∈ u.walkDown p, IsFine u .file x) ∧
      ∀ p ∈ roots, ∀ x ∈ u.walkDown p, IsFine u .directory x)
    fun l => (∃ p ∈ roots, ∃ x ∈ u.walkDown p, HitsAt u .file x l) ∨
      ∃ p ∈ roots, ∃ x ∈ u.walkDown p, HitsAt u .directory x l :=
  (Stamps.forM fun p _ => stamps_stampKind tree .file p).bind
    (Stamps.forM fun p _ => stamps_stampKind tree .directory p)

/-! ## Which entries are hit -/

/-- Where a walk down from a directory finds no error, it hits the files at and below it, or the
directories. -/
theorem hitsAt_iff {e : Entry} (tree : u.IsTree) (hlook : u.lookAt p = .ok (l, e))
    (isDir : e.node = .directory) (hkind : kind ≠ .symlink)
    (fine : ∀ x ∈ u.walkDown p, IsFine u kind x) (m : Location) :
    (∃ x ∈ u.walkDown p, HitsAt u kind x m) ↔ l <+: m ∧ u.kind? m = some kind := by
  have hfind := Disk.find_of_lookAt tree hlook (by rw [isDir]; nofun)
  obtain ⟨-, k, few, route⟩ := Disk.names_of_find tree hfind isDir
  have hdir := Disk.isDir_of_get? (Disk.get?_of_lookAt hlook) isDir
  have stands : (Base.mk p l k).Stands u := ⟨tree, hdir, route⟩
  have surveys := Base.surveys_walkDown stands (.base _) (fun l' e' hlook' => by
    cases hlook.symm.trans hlook'
    exact (List.append_nil l).symm) ((List.append_nil l).symm ▸ hdir)
  -- the path of a visit names the entry of the names that it spells
  have hnamed : ∀ {q rest m' e'}, (Base.mk p l k).Spells q rest → u.kind? (l ++ rest) = some kind →
      u.find true q = .ok (m', e') → m' = l ++ rest := by
    intro q rest m' e' hspells hthere hfound
    by_cases hne : rest = []
    · subst hne
      rw [List.append_nil]
      exact hspells.location_of_find_base stands few hfound
    · have hnotLink : ∀ old, u.node? (l ++ rest) ≠ some (.symlink old) := by
        intro old hold
        rw [Disk.kind?_eq_symlink_iff.2 ⟨old, hold⟩] at hthere
        exact hkind (Option.some.inj hthere).symm
      have hnode : u.node? (l ++ rest) ≠ none := by
        intro hnone
        rw [Disk.kind?_eq_none_iff.2 hnone] at hthere
        cases hthere
      exact (hspells.get?_of_find stands hne (tree.openWay hnode) (.inr hnotLink) hfound).1
  constructor
  · rintro ⟨_, hmem, q, e', rfl, hfound⟩
    obtain ⟨rest, -, hspells, hthere⟩ := surveys.sound q kind hmem
    obtain rfl := hnamed hspells hthere hfound
    exact ⟨List.prefix_append _ _, hthere⟩
  · rintro ⟨⟨rest, rfl⟩, hthere⟩
    have noError : ∀ e, .error e ∉ u.walkDown p := by
      intro e he
      obtain ⟨q, k, heq, -⟩ := fine _ he
      cases heq
    obtain ⟨q, hmem, hspells⟩ := surveys.complete noError rest kind (List.nil_prefix) hthere
    obtain ⟨q', k', heq, hfound⟩ := fine _ hmem
    cases heq
    obtain ⟨⟨m', e'⟩, hfound⟩ := hfound rfl
    cases hnamed hspells hthere hfound
    exact ⟨_, hmem, q, e', rfl, hfound⟩

/-- At or below one of the roots. -/
def Covers (u : Disk) (roots : List Path) (l : Location) : Prop :=
  ∃ p ∈ roots, ∃ r e, u.lookAt p = .ok (r, e) ∧ r <+: l

/-- Walks down from directories that find no error, in whatever order, hit the files that the roots
cover, or the directories. -/
theorem hits_iff_covers {roots roots' : List Path} (tree : u.IsTree)
    (real : ∀ p ∈ roots, ∃ r e, u.lookAt p = .ok (r, e) ∧ e.node = .directory)
    (perm : roots'.Perm roots) (hkind : kind ≠ .symlink)
    (fine : ∀ p ∈ roots, ∀ x ∈ u.walkDown p, IsFine u kind x) (l : Location) :
    (∃ p ∈ roots', ∃ x ∈ u.walkDown p, HitsAt u kind x l) ↔
      Covers u roots l ∧ u.kind? l = some kind := by
  constructor
  · rintro ⟨p, hp, hhits⟩
    have hp := perm.mem_iff.1 hp
    obtain ⟨r, e, hlook, isDir⟩ := real p hp
    obtain ⟨hbelow, hthere⟩ := (hitsAt_iff tree hlook isDir hkind (fine p hp) l).1 hhits
    exact ⟨⟨p, hp, r, e, hlook, hbelow⟩, hthere⟩
  · rintro ⟨⟨p, hp, r, e, hlook, hbelow⟩, hthere⟩
    obtain ⟨r', e', hlook', isDir⟩ := real p hp
    cases hlook.symm.trans hlook'
    exact ⟨p, perm.mem_iff.2 hp, (hitsAt_iff tree hlook isDir hkind (fine p hp) l).2 ⟨hbelow, hthere⟩⟩

/-- Giving trees a time gives it to the files and directories at and below the roots, which no link
leads to, and changes nothing else. Once it has succeeded, it succeeds again and leaves the same, and
so it does for the roots in any order and for the entries of directories in any order. -/
theorem stampTrees_exact {roots : List Path} {w w' : World} (tree : w.disk.IsTree)
    (real : ∀ p ∈ roots, ∃ r e, w.disk.lookAt p = .ok (r, e) ∧ e.node = .directory)
    (hrun : (stampTrees roots time).run w = (.ok (), w')) :
    (∀ l, Covers w.disk roots l → w.disk.kind? l ≠ some .symlink →
      w'.disk.get? l = (w.disk.get? l).map (Entry.stamped time)) ∧
    (∀ l, ¬ (Covers w.disk roots l ∧ w.disk.kind? l ≠ some .symlink) →
      w'.disk.get? l = w.disk.get? l) ∧
    w'.disk.workingDirectory = w.disk.workingDirectory ∧
    ∀ (roots' : List Path) (w₁ : World), roots'.Perm roots →
      w₁.disk.workingDirectory = w.disk.workingDirectory →
      w₁.disk.entries.Perm w.disk.entries ∨ w₁.disk.entries.Perm w'.disk.entries →
      ∃ w₂, (stampTrees roots' time).run w₁ = (.ok (), w₂) ∧
        ∀ l, w₂.disk.get? l = w'.disk.get? l := by
  have stamps := fun roots' =>
    (stamps_stampTrees tree roots' : Stamps w.disk time (stampTrees roots' time) _ _)
  obtain ⟨fineFiles, fineDirectories⟩ : (∀ p ∈ roots, ∀ x ∈ w.disk.walkDown p, IsFine w.disk .file x) ∧
      ∀ p ∈ roots, ∀ x ∈ w.disk.walkDown p, IsFine w.disk .directory x := by
    by_contra hnot
    obtain ⟨e, v, hfail⟩ := (stamps roots).fails w tree (.refl _) hnot
    cases hrun.symm.trans hfail
  -- which locations are hit does not depend on the order of the roots
  have hhit : ∀ {roots' : List Path}, roots'.Perm roots → ∀ l,
      ((∃ p ∈ roots', ∃ x ∈ w.disk.walkDown p, HitsAt w.disk .file x l) ∨
        ∃ p ∈ roots', ∃ x ∈ w.disk.walkDown p, HitsAt w.disk .directory x l) ↔
      Covers w.disk roots l ∧ (w.disk.kind? l = some .file ∨ w.disk.kind? l = some .directory) := by
    intro roots' perm l
    rw [hits_iff_covers tree real perm (by decide) fineFiles,
      hits_iff_covers tree real perm (by decide) fineDirectories, and_or_left]
  obtain ⟨v, hrun', hstamped⟩ := (stamps roots).succeeds w tree (.refl _) ⟨fineFiles, fineDirectories⟩
  cases hrun.symm.trans hrun'
  replace hstamped := hstamped.congr (hhit (.refl _))
  refine ⟨fun l hcovers hlink => ?_, fun l hnot => ?_, hstamped.nodes.workingDirectory,
    fun roots' w₁ perm hworking hentries => ?_⟩
  · cases hkind : w.disk.kind? l with
    | none =>
      have hnone := Disk.node?_eq_none_iff.1 (Disk.kind?_eq_none_iff.1 hkind)
      rw [hstamped.others l fun h => by simp [hkind] at h, hnone]
      rfl
    | some kind =>
      refine hstamped.stamped l ⟨hcovers, ?_⟩
      cases kind with
      | file => exact .inl hkind
      | directory => exact .inr hkind
      | symlink => exact absurd hkind hlink
  · refine hstamped.others l fun ⟨hcovers, hkind⟩ => hnot ⟨hcovers, ?_⟩
    obtain hkind | hkind := hkind <;> rw [hkind] <;> nofun
  · -- a listing in another order of the disk before or after
    obtain ⟨treeW₁, nodes, hget⟩ : w₁.disk.IsTree ∧ Disk.SameNodes w.disk w₁.disk ∧
        ((∀ l, w₁.disk.get? l = w.disk.get? l) ∨ ∀ l, w₁.disk.get? l = w'.disk.get? l) := by
      obtain hperm | hperm := hentries
      · obtain ⟨treeW₁, nodes, hget⟩ := Disk.SameNodes.of_perm tree hperm hworking
        exact ⟨treeW₁, nodes, .inl hget⟩
      · obtain ⟨treeW₁, nodes, hget⟩ := Disk.SameNodes.of_perm hstamped.tree hperm
          (hworking.trans hstamped.nodes.workingDirectory.symm)
        exact ⟨treeW₁, hstamped.nodes.trans nodes, .inr hget⟩
    obtain ⟨w₂, hrun₂, hstamped₂⟩ := (stamps roots').succeeds w₁ treeW₁ nodes
      ⟨fun p hp => fineFiles p (perm.mem_iff.1 hp), fun p hp => fineDirectories p (perm.mem_iff.1 hp)⟩
    exact ⟨w₂, hrun₂, hstamped.again (hstamped₂.congr (hhit perm)) hget⟩

/-- Two roots, one below the other, and a link to a file elsewhere. -/
theorem stampTrees_overlapping :
    let entry : Node → Entry := fun node => ⟨node, 0o755, ⟨0, 0⟩, ⟨0, 0⟩⟩
    let d : Disk := ⟨[(["a".toList, "b".toList], entry .directory), ([], entry .directory),
      (["a".toList], entry .directory), (["a".toList, "b".toList, "l".toList], entry (.symlink ⟨"/x"⟩)),
      (["x".toList], entry (.file 0 #[1])),
      (["a".toList, "b".toList, "f".toList], entry (.file 1 #[2]))], 2, []⟩
    let w : World := ⟨⟨d, []⟩, .seeded 0, fun n => ⟨n, 0⟩, 0⟩
    let roots : List Path := [⟨"/a/b"⟩, ⟨"/a"⟩, ⟨"/a/b"⟩]
    d.IsTree ∧ (∀ p ∈ roots, ∃ r e, d.lookAt p = .ok (r, e) ∧ e.node = .directory) ∧
      ∃ w', (stampTrees roots ⟨9, 0⟩).run w = (.ok (), w') ∧
        (w'.disk.get? ["a".toList, "b".toList, "f".toList]).map Entry.modified = some ⟨9, 0⟩ ∧
        w'.disk.get? ["x".toList] = d.get? ["x".toList] ∧
        ∃ w₂, (stampTrees roots.reverse ⟨9, 0⟩).run w' = (.ok (), w₂) ∧
          ∀ l, w₂.disk.get? l = w'.disk.get? l := by
  intro entry d w roots
  have tree : d.IsTree := .of_entries (by decide) rfl (by decide)
  have hroots : ∀ p ∈ roots, (d.lookAt p).toOption.map (fun x => (x.1.head?, x.2.node)) =
      some (some "a".toList, .directory) := by decide +kernel
  have hlooked : ∀ p ∈ roots, ∃ r e, d.lookAt p = .ok (r, e) ∧ r.head? = some "a".toList ∧
      e.node = .directory := by
    intro p hp
    obtain ⟨⟨r, e⟩, hlook, heq⟩ := Option.map_eq_some_iff.1 (hroots p hp)
    exact ⟨r, e, eq_ok_of_toOption hlook, (Prod.mk.inj heq).1, (Prod.mk.inj heq).2⟩
  have real : ∀ p ∈ roots, ∃ r e, d.lookAt p = .ok (r, e) ∧ e.node = .directory := fun p hp =>
    let ⟨r, e, hlook, _, isDir⟩ := hlooked p hp
    ⟨r, e, hlook, isDir⟩
  obtain ⟨w', hrun⟩ : ∃ w', (stampTrees roots ⟨9, 0⟩).run w = (.ok (), w') :=
    Action.exists_run_of_toOption (by decide +kernel)
  obtain ⟨hstamped, hothers, hworking, hagain⟩ := stampTrees_exact (w := w) tree real hrun
  have hlast : d.lookAt ⟨"/a"⟩ = .ok (["a".toList], entry .directory) :=
    eq_ok_of_toOption (by decide +kernel)
  obtain ⟨w₂, hrun₂, hsame⟩ := hagain roots.reverse w' roots.reverse_perm hworking
    (.inr (.refl _))
  refine ⟨tree, real, w', hrun, ?_, hothers _ ?_, w₂, hrun₂, hsame⟩
  · rw [hstamped _ ⟨⟨"/a"⟩, by decide, _, _, hlast, by decide⟩ (by decide +kernel)]
    decide +kernel
  · rintro ⟨⟨p, hp, r, e, hlook, hbelow⟩, -⟩
    obtain ⟨r', e', hlook', hhead, -⟩ := hlooked p hp
    cases hlook.symm.trans hlook'
    obtain ⟨rest, hrest⟩ := hbelow
    have hfirst := congrArg List.head? hrest
    rw [List.head?_append, hhead, Option.some_or] at hfirst
    exact absurd hfirst (by decide)

end Tree

end TwinTrees
