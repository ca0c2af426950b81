import Mathlib.Data.Char
import TwinTrees.Proofs.Base.Cloning
import TwinTrees.Proofs.Text.Order
import TwinTrees.Proofs.Tree.Copying

/-!
# The same copy made twice

When a copy is made a second time, right after it was made, each of its steps meets what the first run
has left: a directory that was made is there, and a file that was copied is emptied and written again.
`Repeats` says of an action that its second run goes through if the first one did. The two runs are
compared step by step (`Disk.Replay`). While the first run is at the disk `a`, the second is at `b`, on
which is all that is on the disk at the end of the first run, `last`, but for the bytes of files. What is
copied shows the same on `a` and `b`, although it may be written to as well: then both runs write the
same. Each other file has the bytes that it has in the first run now, or those that it will have at its
end; so at the end all bytes are as before.

For this nothing that is copied may be a link, as a link is not made where one is.
-/

namespace TwinTrees

open TwinTrees.Action (Always Leaves of_run_bind of_run_mapError run_bind run_bind_ask)

variable {sink : LogSink} {S : Location → Prop} {last d a a' b : Disk} {l dir : Location} {n : Name}
  {e e' : Entry} {p target source : Path} {f g : OpenFile} {bytes : Bytes} {t : Time}
  {mode mode' : Mode} {ε ε' α β : Type} {v v' w : World}

/-! ## The order of names -/

/-- Names that differ are sorted into the same order, whatever order they were listed in. -/
theorem Tree.sortedNames_eq {xs ys : List (Name × Kind)} (perm : xs.Perm ys)
    (distinct : (xs.map Prod.fst).Nodup) : Tree.sortedNames xs = Tree.sortedNames ys := by
  have sorted : ∀ names, (Tree.sortedNames names).Pairwise fun a b => Text.le a.1 b.1 = true := by
    refine List.pairwise_mergeSort (fun a b c => Text.le_trans) fun a b => ?_
    rw [Bool.or_eq_true]
    exact Text.le_total a.1 b.1
  have hxs : (Tree.sortedNames xs).Perm xs := List.mergeSort_perm ..
  have hys : (Tree.sortedNames ys).Perm ys := List.mergeSort_perm ..
  refine List.Perm.eq_of_pairwise (fun a b ha hb hab hba => ?_) (sorted xs) (sorted ys)
    (hxs.trans (perm.trans hys.symm))
  have hname : a.1 = b.1 := Text.le_antisymm hab hba
  exact List.inj_on_of_nodup_map distinct (hxs.subset ha) (perm.mem_iff.2 (hys.subset hb)) hname

namespace Disk

/-! ## What shows on a disk -/

/-- What shows at a location. -/
def shown? (d : Disk) (l : Location) : Option Node := (d.node? l).map Node.shown

theorem shown?_eq_none_iff : d.shown? l = none ↔ d.node? l = none := Option.map_eq_none_iff

theorem shown?_of_node? {node : Node} (h : d.node? l = some node) : d.shown? l = some node.shown := by
  rw [shown?, h]
  rfl

theorem map_kind_shown? : (d.shown? l).map Node.kind = (d.node? l).map Node.kind := by
  rw [shown?, Option.map_map]
  exact congrArg (Option.map · _) (funext Node.kind_shown)

/-- Where the same shows as where a file is, there is a file with the same bytes. -/
theorem file_of_shown? {i : Nat} (h : b.shown? l = a.shown? l) (ha : a.node? l = some (.file i bytes)) :
    ∃ j, b.node? l = some (.file j bytes) := by
  rw [shown?_of_node? ha] at h
  obtain ⟨node, hnode, hshown⟩ := Option.map_eq_some_iff.1 h
  obtain ⟨-, hdir⟩ | ⟨i, j, bytes, rfl, hfile⟩ | ⟨old, -, hlink⟩ := Node.shown_eq_cases hshown
  · cases hdir
  · cases hfile
    exact ⟨i, hnode⟩
  · cases hlink

/-- Writing to a file changes nothing elsewhere. -/
theorem shown?_store_of_ne (h : l ≠ f.location) : (d.store t f bytes).shown? l = d.shown? l := by
  rw [shown?, node?, get?_store_of_ne h, ← node?, ← shown?]

theorem mode_store : ((d.store t f bytes).get? l).map Entry.mode = (d.get? l).map Entry.mode := by
  cases hstored : (d.store t f bytes).get? l with
  | none => rw [get?_store_eq_none_iff.1 hstored]
  | some e =>
    obtain ⟨old, hold, -, hmode⟩ := of_get?_store hstored
    rw [hold, Option.map_some, Option.map_some, hmode]

/-- What the path of a directory and a name below it lead to, if it is no link. -/
theorem location_of_find_inside (tree : d.IsTree) (hdir : d.find true p = .ok (dir, e))
    (isDir : e.node = .directory) (isName : IsName n) {follow : Bool}
    (noLink : d.kind? (dir ++ [n]) ≠ some .symlink)
    (hfind : d.find follow (Tree.inside p n) = .ok (l, e')) : l = dir ++ [n] := by
  obtain ⟨-, k, -, route⟩ := names_of_find tree hdir isDir
  have hget : d.get? dir = some e := by
    obtain ⟨target, -, rfl, hget⟩ := of_find hdir
    exact hget
  have stands : (Base.mk p dir k).Stands d := ⟨tree, isDir_of_get? hget isDir, route⟩
  refine (((Base.Spells.base _).inside isName).get?_of_find stands (List.cons_ne_nil _ _) ?_
    (.inr (ne_symlink_of_kind? noLink)) hfind).1
  intro m hm hne hend
  obtain rfl | ⟨m, rfl, hnil⟩ := List.prefix_cons_iff.1 hm
  · exact absurd rfl hne
  · exact absurd (by rw [List.prefix_nil.1 hnil, List.nil_append]) hend

/-! ## A second run beside the first -/

/-- The disks of two runs of one action, of which the first leaves the disk `last` and the second starts
on it (see the module docstring). -/
structure Replay (sink : LogSink) (S : Location → Prop) (last a b : Disk) : Prop where
  tree : b.IsTree
  persists : Persists last b
  modes : ∀ l, (b.get? l).map Entry.mode = (last.get? l).map Entry.mode
  copied : ∀ l, S l → b.shown? l = a.shown? l
  others : ∀ l, ¬ sink.IsAt l → b.shown? l = a.shown? l ∨ b.shown? l = last.shown? l

namespace Replay

theorem start (tree : last.IsTree) (same : ∀ l, S l → last.shown? l = a.shown? l) :
    Replay sink S last a last :=
  ⟨tree, .refl _, fun _ => rfl, same, fun _ _ => .inr rfl⟩

/-- The first run makes entries. In the second run they are there. -/
theorem grow (h : Replay sink S last a b) (more : Extends a a') (onto : Persists a' last) :
    Replay sink S last a' b := by
  have same : ∀ l, b.shown? l = a.shown? l → b.shown? l = a'.shown? l := by
    intro l hl
    cases ha : a.node? l with
    | some node =>
      obtain ⟨node', hnode', hshown⟩ := more.node l node ha
      rw [hl, shown?_of_node? ha, shown?_of_node? hnode', hshown]
    | none =>
      have free : b.node? l = none := shown?_eq_none_iff.1 (hl.trans (shown?_eq_none_iff.2 ha))
      rw [shown?_eq_none_iff.2 free, shown?_eq_none_iff.2 (onto.free (h.persists.free free))]
  exact { h with
    copied := fun l hl => same l (h.copied l hl)
    others := fun l hl => (h.others l hl).imp_left (same l) }

/-- The second run gives a file the bytes that it has in the first run now. -/
theorem write (h : Replay sink S last a b) {old : Bytes}
    (hg : b.node? g.location = some (.file g.id old))
    (there : a'.shown? g.location = some (.file 0 bytes))
    (elsewhere : ∀ l, l ≠ g.location → a'.shown? l = a.shown? l) (t : Time) :
    Replay sink S last a' (b.store t g bytes) := by
  have written : (b.store t g bytes).shown? g.location = a'.shown? g.location := by
    rw [there, shown?_of_node? (Holds.node?_store ⟨old, hg⟩)]
    rfl
  refine ⟨h.tree.store, h.persists.trans persists_store, fun l => mode_store.trans (h.modes l),
    fun l hl => ?_, fun l hl => ?_⟩
  · by_cases heq : l = g.location
    · rw [heq, written]
    · rw [shown?_store_of_ne heq, elsewhere l heq, h.copied l hl]
  · by_cases heq : l = g.location
    · exact .inl (heq ▸ written)
    · rw [shown?_store_of_ne heq, elsewhere l heq]
      exact h.others l hl

/-- Both runs write events to the log, which need not be the same. -/
theorem log (h : Replay sink S last a b) {path : Path} (hsink : sink = .file path f)
    (notLog : ∀ l, S l → ¬ sink.IsAt l) (t t' : Time) (bytes bytes' : Bytes) :
    Replay sink S last (a.append t f bytes) (b.append t' f bytes') := by
  have elsewhere : ∀ {l}, ¬ sink.IsAt l → l ≠ f.location := by
    rintro l hl rfl
    exact hl ⟨path, f, hsink, rfl⟩
  refine ⟨h.tree.store, h.persists.trans persists_store, fun l => mode_store.trans (h.modes l),
    fun l hl => ?_, fun l hl => ?_⟩
  · have hne := elsewhere (notLog l hl)
    rw [append, append, shown?_store_of_ne hne, shown?_store_of_ne hne, h.copied l hl]
  · have hne := elsewhere hl
    rw [append, append, shown?_store_of_ne hne, shown?_store_of_ne hne]
    exact h.others l hl

/-- Both runs read the same from a file that is copied. -/
theorem load_eq (h : Replay sink S last a b) (hf : a.Holds f) (hg : b.Holds g)
    (hlocation : g.location = f.location) (hS : S f.location) : b.load g = a.load f := by
  obtain ⟨x, hx⟩ := hf
  obtain ⟨y, hy⟩ := hg
  rw [Holds.load hx, Holds.load hy]
  have hshown := h.copied _ hS
  rw [← hlocation, shown?_of_node? hy, hlocation, shown?_of_node? hx] at hshown
  cases hshown
  rfl

theorem kind?_eq (h : Replay sink S last a b) (l : Location) : b.kind? l = last.kind? l := by
  cases hlast : last.node? l with
  | some node =>
    obtain ⟨node', hnode', hkind, -⟩ := h.persists.node l node hlast
    rw [kind?, kind?, hlast, hnode', Option.map_some, hkind, Option.map_some]
  | none =>
    have hmode := h.modes l
    rw [node?_eq_none_iff.1 hlast, Option.map_none, Option.map_eq_none_iff] at hmode
    rw [kind?_eq_none_iff.2 (node?_eq_none_iff.2 hmode), kind?_eq_none_iff.2 hlast]

/-- When the first run is at its end, the same shows on both disks, the log apart. -/
theorem shown_eq (h : Replay sink S last last b) (hl : ¬ sink.IsAt l) :
    (b.get? l).map (Entry.shown false) = (last.get? l).map (Entry.shown false) := by
  have hnode := (h.others l hl).elim id id
  have hmode := h.modes l
  unfold shown? node? at hnode
  cases hb : b.get? l <;> cases hlast : last.get? l <;> rw [hb, hlast] at hnode hmode
  · cases hnode
  · cases hnode
  · simp only [Option.map_some, Option.some.injEq] at hnode hmode
    simp only [Option.map_some, Entry.shown, hnode, hmode, Bool.false_eq_true, if_false]

end Replay

/-! ## Opening the same file again -/

/-- A file was opened at a path and is empty. -/
structure Emptied (a : Disk) (p : Path) (f : OpenFile) (a' : Disk) : Prop where
  target : ∃ dir n, a.target .followBare p = .ok (.name dir n false) ∧ f.location = dir ++ [n]
  node : a'.node? f.location = some (.file f.id #[])
  elsewhere : ∀ l, l ≠ f.location → a'.node? l = a.node? l
  persists : Persists a a'
  holds : ∀ g, a.Holds g → a'.Holds g

theorem emptied_of_openOrCreate (h : a.openOrCreate t p mode true = .ok (f, a')) :
    a.Emptied p f a' := by
  obtain ⟨dir, n, htarget, hlocation, ⟨free, hid, rfl⟩ | ⟨bytes, hnode, rfl⟩⟩ := of_openOrCreate h
  · have hnode : ∀ l, (a.addFile t dir n mode).node? l =
        if l = dir ++ [n] then some (.file f.id #[]) else a.node? l := fun l => hid ▸ node?_addEntry
    refine ⟨⟨dir, n, htarget, hlocation⟩, ?_, fun l hl => ?_, ⟨fun l node hl => ?_, rfl⟩,
      fun g hg => hg.addFile free.free⟩
    · rw [hnode, if_pos hlocation]
    · rw [hnode, if_neg (hlocation ▸ hl)]
    · refine ⟨node, ?_, rfl, fun _ => rfl⟩
      rw [hnode, if_neg, hl]
      rintro rfl
      rw [free.free] at hl
      cases hl
  · rw [← hlocation] at hnode
    refine ⟨⟨dir, n, htarget, hlocation⟩, ?_, fun l hl => ?_, persists_store, fun g hg => hg.store #[]⟩
    · exact Holds.node?_store ⟨bytes, hnode⟩
    · rw [if_pos rfl, node?, get?_store_of_ne hl, ← node?]

/-- Where nothing is gone since a file was opened, it can be opened again, and is the same one. -/
theorem Emptied.again (h : a.Emptied p f a') (onto : Persists a' b) (tree : b.IsTree) :
    ∃ g old, g.location = f.location ∧ b.node? g.location = some (.file g.id old) ∧
      ∀ t mode, b.openOrCreate t p mode true = .ok (g, b.store t g #[]) := by
  obtain ⟨dir, n, htarget, hlocation⟩ := h.target
  obtain ⟨node, hnode, hkind, -⟩ := onto.node _ _ h.node
  cases node with
  | directory => cases hkind
  | symlink => cases hkind
  | file i old =>
    rw [hlocation] at hnode
    obtain ⟨e, he, hfile⟩ := node?_eq_some_iff.1 hnode
    have htarget' : b.target .followBare p = .ok (.name dir n false) := by
      refine (h.persists.trans onto).target htarget fun _ _ _ heq _ old hold => ?_
      cases heq
      cases hnode.symm.trans hold
    have hchild : b.child? dir n = .ok (some e) := by
      rw [child?_of_short (Route.not_isTooLong tree (node?_ne_none_of_eq hnode)), he]
    refine ⟨⟨dir ++ [n], i⟩, old, hlocation.symm, hnode, fun t mode => ?_⟩
    unfold openOrCreate
    rw [htarget']
    simp only [bind, Except.bind, hchild, Except.mapError, hfile]
    rfl

/-- A file that is found can be opened. -/
theorem openExisting_of_find {i : Nat} (h : d.find true p = .ok (l, e)) (hfile : e.node = .file i bytes) :
    d.openExisting p = .ok ⟨l, i⟩ := by
  unfold openExisting
  rw [h]
  simp only [bind, Except.bind, hfile]
  rfl

/-! ## Disks that grow -/

/-- The disk `d` can be worked on, and what was on the disk `u` is on it. -/
def Onward (u d : Disk) : Prop := Tree.Usable d ∧ Persists u d

end Disk

/-- The action leaves disks that can be worked on and takes nothing away. -/
def Grows (act : Action ε α) : Prop := ∀ u, Always (Disk.Onward u) act fun _ => True

namespace Grows

theorem of_run {act : Action ε α} (h : Grows act) {y : Except ε α} (usable : Tree.Usable v.disk)
    (hrun : act.run v = (y, v')) : Tree.Usable v'.disk ∧ v.disk.Persists v'.disk :=
  (h v.disk v y v' ⟨usable, .refl _⟩ hrun).1

theorem pure (x : α) : Grows (Pure.pure x : Action ε α) := fun _ => Always.pure trivial

theorem throw (fault : ε) : Grows (throw fault : Action ε α) := fun _ => Always.throw fault

theorem ask (q : Disk → Except ε α) : Grows (Action.ask q) := fun _ =>
  Always.ask fun _ _ _ _ => trivial

theorem bind {act : Action ε α} {k : α → Action ε β} (h : Grows act) (hk : ∀ y, Grows (k y)) :
    Grows (act >>= k) := fun u => (h u).bind fun y _ => hk y u

theorem map {act : Action ε α} (h : Grows act) (k : α → β) : Grows (k <$> act) := fun u =>
  (h u).map fun _ _ => trivial

theorem mapError {act : Action ε' α} (h : Grows act) (k : ε' → ε) : Grows (act.mapError k) :=
  fun u => (h u).mapError k

theorem forM {k : α → Action ε Unit} {xs : List α} (h : ∀ x ∈ xs, Grows (k x)) :
    Grows (xs.forM k) := fun u => Always.forM fun x hx => h x hx u

theorem write (env : Environment) (event : Event) : Grows (ε := ε) (env.write event) := fun _ =>
  Always.write fun _ _ _ _ _ _ ⟨usable, persists⟩ =>
    ⟨⟨usable.1.store, usable.2.store⟩, persists.trans Disk.persists_store⟩

theorem copyEntry (target source : Path) : Grows (Tree.copyEntry target source) :=
  Disk.Spares.grows fun _ => Disk.Spares.copyEntry (.inr (List.mem_singleton.2 rfl))

theorem copyLevels (root target source : Path) (depth : Nat) {copySelf : Action CommandError Unit}
    (h : Grows copySelf) : Grows (Tree.copyLevels root depth target source copySelf) :=
  fun u => Tree.always_copyLevels root (fun target source => copyEntry target source u) (h u)

theorem copyTree (target source : Path) : Grows (Tree.copyTree target source) := by
  have copied : ∀ e : Entry, Grows (if e.node.kind = .directory then
      Tree.copyLevels source pathLimit (target.join ⟨""⟩) source
        (Tree.copyEntry (target.join ⟨""⟩) source)
      else Tree.copyEntry (target.join ⟨""⟩) source) := by
    intro e
    split
    · exact copyLevels _ _ _ _ (copyEntry _ _)
    · exact copyEntry _ _
  unfold Tree.copyTree
  refine ((ask _).mapError _).bind fun ⟨_, e⟩ => ?_
  simp only
  split
  · exact (((ask _).mapError _).map _).bind copied
  · exact (pure e).bind copied

end Grows

/-- When the first run of `act` has succeeded, the run of `act'` beside it does (see the module
docstring). What `act` does is there at the end, on the disk `last`. -/
structure Repeats (sink : LogSink) (S : Location → Prop) (last : Disk) (act act' : Action ε Unit) :
    Prop where
  grows : Grows act
  again : ∀ {v v' x : World}, Tree.Usable v.disk → act.run v = (.ok (), v') →
    v'.disk.Persists last → Disk.Replay sink S last v.disk x.disk →
      ∃ x', act'.run x = (.ok (), x') ∧ Disk.Replay sink S last v'.disk x'.disk

namespace Repeats

variable {act act' : Action ε Unit}

theorem pure : Repeats sink S last (Pure.pure () : Action ε Unit) (Pure.pure ()) where
  grows := .pure ()
  again _ hrun _ h := by
    cases hrun
    exact ⟨_, rfl, h⟩

/-- What fails need not be repeated. -/
theorem throw (fault : ε) : Repeats sink S last (throw fault) act' where
  grows := .throw fault
  again _ hrun := by cases hrun

theorem bind {k k' : Unit → Action ε Unit} (h : Repeats sink S last act act')
    (hk : Repeats sink S last (k ()) (k' ())) :
    Repeats sink S last (act >>= k) (act' >>= k') where
  grows := h.grows.bind fun _ => hk.grows
  again usable hrun onto replay := by
    obtain ⟨⟨⟩, v₁, hfirst, hrest⟩ := of_run_bind hrun
    have usable₁ := (h.grows.of_run usable hfirst).1
    obtain ⟨-, persists⟩ := hk.grows.of_run usable₁ hrest
    obtain ⟨x₁, hfirst', replay₁⟩ := h.again usable hfirst (persists.trans onto) replay
    obtain ⟨x', hrest', replay'⟩ := hk.again usable₁ hrest onto replay₁
    refine ⟨x', ?_, replay'⟩
    rw [run_bind, hfirst']
    exact hrest'

theorem mapError {act act' : Action ε' Unit} (h : Repeats sink S last act act') (f : ε' → ε) :
    Repeats sink S last (act.mapError f) (act'.mapError f) where
  grows := h.grows.mapError f
  again usable hrun onto replay := by
    obtain ⟨x', hrun', replay'⟩ := h.again usable (of_run_mapError hrun) onto replay
    refine ⟨x', ?_, replay'⟩
    rw [Action.run_mapError, hrun']
    rfl

/-- A question about the disk may be answered otherwise in the second run, if what is done then still
repeats what was done. -/
theorem ask {q : Disk → Except ε α} {k k' : α → Action ε Unit} (grows : Grows (Action.ask q >>= k))
    (h : ∀ a b y, Tree.Usable a → a.Persists last → Disk.Replay sink S last a b → q a = .ok y →
      ∃ y', q b = .ok y' ∧ Repeats sink S last (k y) (k' y')) :
    Repeats sink S last (Action.ask q >>= k) (Action.ask q >>= k') where
  grows := grows
  again {v v' x} usable hrun onto replay := by
    have persists := (grows.of_run usable hrun).2
    obtain ⟨y, v₁, hask, hrest⟩ := of_run_bind hrun
    rw [Action.run_ask] at hask
    obtain ⟨hy, rfl⟩ := Prod.mk.inj hask
    obtain ⟨y', hy', hk⟩ := h _ _ y usable (persists.trans onto) replay hy
    obtain ⟨x', hrest', replay'⟩ := hk.again usable hrest onto replay
    refine ⟨x', ?_, replay'⟩
    rw [run_bind, Action.run_ask, hy']
    exact hrest'

theorem ask_mapError {q : Disk → Except ε' α} {f : ε' → ε} {k k' : α → Action ε Unit}
    (grows : Grows ((Action.ask q).mapError f >>= k))
    (h : ∀ a b y, Tree.Usable a → a.Persists last → Disk.Replay sink S last a b → q a = .ok y →
      ∃ y', q b = .ok y' ∧ Repeats sink S last (k y) (k' y')) :
    Repeats sink S last ((Action.ask q).mapError f >>= k) ((Action.ask q).mapError f >>= k') := by
  refine ask (q := fun d => (q d).mapError f) grows fun a b y usable onto replay hy => ?_
  cases hq : q a with
  | error fault => rw [hq] at hy; cases hy
  | ok z =>
    rw [hq] at hy
    cases hy
    obtain ⟨y', hy', hk⟩ := h a b y usable onto replay hq
    exact ⟨y', by rw [hy']; rfl, hk⟩

theorem forM {k : α → Action ε Unit} {xs : List α}
    (h : ∀ x ∈ xs, Repeats sink S last (k x) (k x)) :
    Repeats sink S last (xs.forM k) (xs.forM k) := by
  induction xs with
  | nil => exact pure
  | cons x xs ih =>
    show Repeats sink S last (k x >>= fun _ => xs.forM k) (k x >>= fun _ => xs.forM k)
    exact (h x List.mem_cons_self).bind (ih fun y hy => h y (List.mem_cons_of_mem x hy))

/-- Events are written to the log in both runs. -/
theorem write {env : Environment} (notLog : ∀ l, S l → ¬ env.sink.IsAt l) (event : Event) :
    Repeats (ε := ε) env.sink S last (env.write event) (env.write event) where
  grows := .write env event
  again _ hrun _ replay := by
    unfold Environment.write at hrun ⊢
    rw [LogSink.run_write] at hrun ⊢
    cases hrun
    refine ⟨_, rfl, ?_⟩
    generalize env.sink = sink at notLog replay ⊢
    cases sink with
    | console => exact replay
    | file path f => exact replay.log rfl notLog _ _ _ _

end Repeats

/-! ## Copies -/

namespace Disk

/-- The locations `S` are those of whole trees, and there is no link among them. -/
structure Sources (S : Location → Prop) (d : Disk) : Prop where
  tree : d.IsTree
  below : ∀ l m, S l → l <+: m → S m
  noLink : ∀ l, S l → d.kind? l ≠ some .symlink

/-- What is at a path is among the locations `S`. -/
def Leads (S : Location → Prop) (follow : Bool) (d : Disk) (p : Path) : Prop :=
  ∀ l e, d.find follow p = .ok (l, e) → S l

/-- What is in a directory among the locations `S` is among them. -/
theorem Leads.inside (sources : Sources S d) (leads : Leads S true d p)
    (hfind : d.find true p = .ok (dir, e)) (isDir : e.node = .directory) (isName : IsName n)
    (follow : Bool) : Leads S follow d (Tree.inside p n) := by
  intro l e' hinside
  have hS : S (dir ++ [n]) := sources.below _ _ (leads _ _ hfind) (List.prefix_append _ _)
  rwa [location_of_find_inside sources.tree hfind isDir isName (sources.noLink _ hS) hinside]

end Disk

namespace Tree

variable {size : Nat}

/-- What a copy of a file that succeeds has done. -/
theorem of_run_copyFile (h : (copyFile target source size).run w = (.ok (), v)) :
    ∃ input copy t t' d, w.disk.openExisting source = .ok input ∧
      w.disk.openOrCreate t target fileMode true = .ok (copy, d) ∧ (d.load input).size = size ∧
      v.disk = d.append t' copy (d.load input) := by
  unfold copyFile at h
  obtain ⟨input, w₁, hask, hrest⟩ := of_run_bind h
  have hasked := of_run_mapError hask
  rw [Action.run_ask] at hasked
  obtain ⟨hin, rfl⟩ := Prod.mk.inj hasked
  obtain ⟨copy, w₂, hrequest, hrest₁⟩ := of_run_bind hrest
  obtain ⟨d, hopen, rfl⟩ := Action.of_run_request (of_run_mapError hrequest)
  rw [run_bind_ask] at hrest₁
  obtain ⟨⟨⟩, w₃, hchange, hrest₂⟩ := of_run_bind hrest₁
  obtain ⟨d', happend, rfl⟩ := Action.of_run_change hchange
  cases happend
  split at hrest₂
  · cases hrest₂
  · next hsize =>
    cases hrest₂
    exact ⟨input, copy, _, _, d, hin, hopen, not_not.1 hsize, rfl⟩

/-- A file is copied if both files can be opened and as much is read as there was. -/
theorem run_copyFile_of_opened {input copy : OpenFile} (hin : w.disk.openExisting source = .ok input)
    (hopen : w.disk.openOrCreate (Action.time w) target fileMode true = .ok (copy, d))
    (hsize : (d.load input).size = size) :
    ∃ v t, (copyFile target source size).run w = (.ok (), v) ∧
      v.disk = d.append t copy (d.load input) := by
  unfold copyFile
  rw [run_bind, Action.named, Action.run_mapError, Action.run_ask, hin]
  simp only [Except.mapError]
  rw [run_bind, Action.named, Action.run_mapError, Action.run_request, hopen]
  simp only [Except.mapError]
  rw [run_bind_ask, run_bind, Action.run_change]
  simp only
  rw [if_neg (not_not_intro hsize)]
  exact ⟨_, _, rfl, rfl⟩

end Tree

namespace Repeats

open Disk (Leads Sources)

theorem makeDirectories :
    Repeats sink S last (Tree.makeDirectories p mode) (Tree.makeDirectories p mode') where
  grows := Disk.Spares.grows fun u =>
    (Leaves.of_always Disk.Spares.makeDirectories (fun _ _ h _ => h) fun _ => id :
      Leaves (Disk.Spares .console [] [] u) _ _ _)
  again {v v' x} usable hrun onto replay := by
    have sound : v.disk.IsSound p := .of_working usable.1 usable.2
    cases hempty : p.text.isEmpty with
    | true =>
      obtain ⟨above, habove⟩ := p.ancestors_eq
      unfold Tree.makeDirectories at hrun ⊢
      rw [habove, Tree.makeDirectoriesAlong, if_pos hempty] at hrun ⊢
      cases hrun
      exact ⟨x, rfl, replay⟩
    | false =>
      obtain ⟨hthere, -⟩ := Tree.of_makeDirectories mode sound hempty (congrArg Prod.fst hrun)
      have more := Tree.extends_makeDirectories sound mode
      rw [hrun] at hthere more
      refine ⟨_, Tree.makeDirectories_of_isDirectory replay.tree
        (replay.persists.isDirectory (onto.isDirectory hthere)), ?_⟩
      exact replay.grow more onto

theorem makeParent : Repeats sink S last (Tree.makeParent p) (Tree.makeParent p) := by
  unfold Tree.makeParent
  split
  · exact makeDirectories.mapError _
  · exact pure

/-- A file that is copied is emptied and written once more. -/
theorem copyFile {size : Nat} (leads : Leads S true last source) :
    Repeats sink S last (Tree.copyFile target source size) (Tree.copyFile target source size) where
  grows := Disk.Spares.grows fun _ => Disk.Spares.copyFile (List.mem_singleton.2 rfl) size
  again {v v' x} usable hrun onto replay := by
    obtain ⟨input, copy, t, t', a, hin, hopen, hsize, hdisk⟩ := Tree.of_run_copyFile hrun
    have emptied := Disk.emptied_of_openOrCreate hopen
    have onto₁ : a.Persists last := by
      refine Disk.Persists.trans ?_ onto
      rw [hdisk]
      exact Disk.persists_store
    -- both runs read the file that the path of the source leads to at the end
    obtain ⟨e, bytes, hfind, hfile⟩ := Disk.of_openExisting hin
    obtain ⟨-, -, -, hget⟩ := Disk.of_find hfind
    have hread : v.disk.node? input.location = some (.file input.id bytes) := by
      rw [Disk.node?_of_get? hget, hfile]
    obtain ⟨e₁, hfind₁, -⟩ := (emptied.persists.trans onto₁).find hfind
    have hS : S input.location := leads _ _ hfind₁
    obtain ⟨e₂, hfind₂, hget₂⟩ := replay.persists.find hfind₁
    obtain ⟨i, hread'⟩ := Disk.file_of_shown? (replay.copied _ hS) hread
    have hin' : x.disk.openExisting source = .ok ⟨input.location, i⟩ :=
      Disk.openExisting_of_find hfind₂ (Option.some.inj ((Disk.node?_of_get? hget₂).symm.trans hread'))
    -- and write to the same file
    obtain ⟨g, old, hlocation, hg, hopen'⟩ := emptied.again (onto₁.trans replay.persists) replay.tree
    have replay₁ : Disk.Replay sink S last a (x.disk.store (Action.time x) g #[]) := by
      refine replay.write hg ?_ (fun l hl => ?_) _
      · rw [hlocation, Disk.shown?_of_node? emptied.node]
        rfl
      · rw [Disk.shown?, emptied.elsewhere l (hlocation ▸ hl), ← Disk.shown?]
    have hload : (x.disk.store (Action.time x) g #[]).load ⟨input.location, i⟩ = a.load input :=
      replay₁.load_eq (emptied.holds input ⟨bytes, hread⟩) (Disk.Holds.store ⟨bytes, hread'⟩ _) rfl hS
    have hempty : (x.disk.store (Action.time x) g #[]).node? g.location = some (.file g.id #[]) :=
      Disk.Holds.node?_store ⟨old, hg⟩
    obtain ⟨x', t'', hrun', hdisk'⟩ :=
      Tree.run_copyFile_of_opened hin' (hopen' _ _) (by rw [hload, hsize])
    refine ⟨x', hrun', ?_⟩
    rw [hdisk, hdisk', hload, Disk.append, Disk.append, Disk.Holds.load hempty,
      Disk.Holds.load emptied.node, Array.empty_append]
    refine replay₁.write hempty ?_ (fun l hl => ?_) _
    · rw [hlocation, Disk.shown?_of_node? (Disk.Holds.node?_store ⟨#[], emptied.node⟩)]
      rfl
    · exact Disk.shown?_store_of_ne (hlocation ▸ hl)

/-- What is copied is found again, and is no link. -/
theorem lookAt_again (sources : Sources S last) (leads : Leads S false last source)
    (onto : a.Persists last) (replay : Disk.Replay sink S last a b)
    (hlook : a.lookAt source = .ok (l, e)) :
    e.node.kind ≠ .symlink ∧ Leads S true last source ∧
      ∃ e', b.lookAt source = .ok (l, e') ∧ e'.node.shown = e.node.shown := by
  obtain ⟨-, -, -, hget⟩ := Disk.of_find hlook
  obtain ⟨node, hnode, hkind, -⟩ := onto.node l _ (Disk.node?_of_get? hget)
  obtain ⟨e₁, hlook₁, hget₁⟩ := onto.find hlook
  obtain ⟨e', hlook', hget'⟩ := replay.persists.find hlook₁
  have hS := leads l e₁ hlook₁
  obtain rfl := Option.some.inj ((Disk.node?_of_get? hget₁).symm.trans hnode)
  have notLink : e₁.node.kind ≠ .symlink := fun hlink =>
    sources.noLink l hS (by rw [Disk.kind?_of_get? hget₁, hlink])
  refine ⟨hkind ▸ notLink, fun l' e₂ hfind => ?_, e', hlook', ?_⟩
  · cases hfind.symm.trans (Disk.find_of_lookAt sources.tree hlook₁ notLink)
    exact hS
  · have hshown := replay.copied l hS
    rw [Disk.shown?_of_node? (Disk.node?_of_get? hget'),
      Disk.shown?_of_node? (Disk.node?_of_get? hget)] at hshown
    exact Option.some.inj hshown

/-- An entry that is no link is copied once more. -/
theorem copyEntry (sources : Sources S last) (leads : Leads S false last source) :
    Repeats sink S last (Tree.copyEntry target source) (Tree.copyEntry target source) := by
  have grows := Grows.copyEntry target source
  unfold Tree.copyEntry at grows ⊢
  refine ask_mapError grows ?_
  rintro a b ⟨l, e⟩ - onto replay hlook
  obtain ⟨notLink, leads', e', hlook', hshown⟩ := lookAt_again sources leads onto replay hlook
  refine ⟨(l, e'), hlook', ?_⟩
  obtain ⟨hdir', hdir⟩ | ⟨i, j, bytes, hfile', hfile⟩ | ⟨old, -, hlink⟩ := Node.shown_eq_cases hshown
  · simp only [hdir, hdir']
    exact makeDirectories.mapError _
  · simp only [hfile, hfile']
    exact makeParent.bind (copyFile leads')
  · rw [hlink] at notLink
    exact absurd rfl notLink

/-- The names in a directory that is copied are the same in both runs. -/
theorem sortedNames_again (sources : Sources S last) (replay : Disk.Replay sink S last a b)
    (treeA : a.IsTree) (hS : S l) : Tree.sortedNames (b.names l) = Tree.sortedNames (a.names l) := by
  have listsA := treeA.lists l
  have listsB := replay.tree.lists l
  refine Tree.sortedNames_eq ?_ listsB.distinct
  rw [List.perm_ext_iff_of_nodup (.of_map _ listsB.distinct) (.of_map _ listsA.distinct)]
  rintro ⟨n, kind⟩
  have hshown := replay.copied _ (sources.below l (l ++ [n]) hS (List.prefix_append _ _))
  rw [listsA.mem_iff, listsB.mem_iff, ← Disk.map_kind_shown?, hshown, Disk.map_kind_shown?]

/-- A directory is copied once more with all that is in it. -/
theorem copyLevels (sources : Sources S last) (root : Path) (depth : Nat)
    {copySelf : Action CommandError Unit} (leads : Leads S true last source)
    (hself : Repeats sink S last copySelf copySelf) :
    Repeats sink S last (Tree.copyLevels root depth target source copySelf)
      (Tree.copyLevels root depth target source copySelf) := by
  induction depth generalizing target source copySelf with
  | zero => exact hself.bind (throw _)
  | succ depth ih =>
    have grows := Grows.copyLevels root target source (depth + 1) hself.grows
    rw [Tree.copyLevels] at grows ⊢
    refine ask grows ?_
    rintro a b names usable onto replay ⟨⟩
    refine ⟨b.list source, rfl, hself.bind ?_⟩
    cases hlist : a.list source with
    | error fault => exact throw _
    | ok names =>
      obtain ⟨l, e, hfind, isDir, hnames⟩ := Disk.of_list hlist
      obtain ⟨e₁, hfind₁, isDir₁⟩ := onto.find_directory hfind isDir
      obtain ⟨e', hfind', isDir'⟩ := replay.persists.find_directory hfind₁ isDir₁
      have hlist' : b.list source = .ok (b.names l) := by
        rw [Disk.list, hfind']
        exact if_pos (Disk.kind_eq_directory_iff.2 isDir')
      rw [hlist']
      simp only
      rw [sortedNames_again sources replay usable.1 (leads l e₁ hfind₁), ← hnames]
      refine forM fun x hx => ?_
      have isName := usable.1.isName_of_list hlist ((List.mergeSort_perm ..).subset hx)
      have entry : Repeats sink S last (Tree.copyEntry (Tree.inside target x.1) (Tree.inside source x.1))
          (Tree.copyEntry (Tree.inside target x.1) (Tree.inside source x.1)) :=
        copyEntry sources (leads.inside sources hfind₁ isDir₁ isName false)
      split
      · exact ih (leads.inside sources hfind₁ isDir₁ isName true) entry
      · exact entry

/-- A tree is copied once more. -/
theorem copyTree (sources : Sources S last) (leads : Leads S false last source) :
    Repeats sink S last (Tree.copyTree target source) (Tree.copyTree target source) := by
  have grows := Grows.copyTree target source
  unfold Tree.copyTree at grows ⊢
  refine ask_mapError grows ?_
  rintro a b ⟨l, e⟩ - onto replay hlook
  obtain ⟨notLink, leads', e', hlook', hshown⟩ := lookAt_again sources leads onto replay hlook
  refine ⟨(l, e'), hlook', ?_⟩
  simp only [Node.kind_eq_of_shown hshown, if_neg notLink, pure_bind]
  split
  · exact copyLevels sources _ _ leads' (copyEntry sources leads)
  · exact copyEntry sources leads

end Repeats

end TwinTrees
