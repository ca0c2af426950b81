import TwinTrees.Proofs.Disk.Growth
import TwinTrees.Proofs.Disk.Removal
import TwinTrees.Verb.Link
import TwinTrees.Verb.Make

/-!
# What `mkfile` and `symlink` add

Both verbs ask for one entry after another and only add to the disk, also if they fail on the way
(`Verb.adds_make`, `Verb.adds_link`). If they succeed, each name stands for one new entry, and all
other new entries are directories that were missing above them. `Makes` keeps account of this: it says
which entries a sequence of requests has made, at which paths and locations, and which events were
written. An entry that was made is still there, and found at its path, after the later requests, since
these only add.
-/

namespace TwinTrees

open TwinTrees.Action (Always)

variable {sink : LogSink} {u d d' : Disk} {w v w' : World} {p : Path} {ε α : Type}

/-- A disk on which paths can be followed from the working directory, and which has not given away
the identity of the log. -/
structure Disk.Ready (sink : LogSink) (d : Disk) : Prop where
  tree : d.IsTree
  working : d.IsDir d.workingDirectory
  opened : ∀ f, sink.WritesTo f → f.id < d.nextId

theorem Disk.Adds.ready {new : Location → Prop} (h : u.Ready sink) (adds : Disk.Adds sink new u d) :
    d.Ready sink :=
  ⟨adds.tree, adds.working, fun f hf => Nat.lt_of_lt_of_le (h.opened f hf) adds.nextId⟩

/-! ## What requests have made -/

/-- An entry that was asked for. -/
structure Creation where
  path : Path
  location : Location
  entry : Entry
  /-- What was written to the log. -/
  event : Event

/-- The entry is no directory and no file that was open before. -/
def Entry.IsFresh (d : Disk) (e : Entry) : Prop :=
  e.node ≠ .directory ∧ ∀ id bytes, e.node = .file id bytes → d.nextId ≤ id

/-- From one world to the other these entries were made, each where nothing was, and otherwise only
directories on the way to them. -/
structure Makes (sink : LogSink) (made : List Creation) (w w' : World) : Prop where
  adds : Disk.Adds sink (· ∈ made.map Creation.location) w.disk w'.disk
  distinct : (made.map Creation.location).Nodup
  free : ∀ c ∈ made, w.disk.get? c.location = none
  fresh : ∀ c ∈ made, c.entry.IsFresh w.disk
  found : ∀ c ∈ made, w'.disk.lookAt c.path = .ok (c.location, c.entry)
  journal : w'.journal.map (fun r => (r.sink, r.event)) =
    w.journal.map (fun r => (r.sink, r.event)) ++ made.map fun c => (sink, c.event)

namespace Makes

variable {made made' : List Creation}

theorem nil (h : w.disk.Ready sink) : Makes sink [] w w where
  adds := .refl _ _ h.tree h.working
  distinct := List.nodup_nil
  free := List.forall_mem_nil _
  fresh := List.forall_mem_nil _
  found := List.forall_mem_nil _
  journal := (List.append_nil _).symm

theorem append (ready : w.disk.Ready sink) (h : Makes sink made w v) (h' : Makes sink made' v w') :
    Makes sink (made ++ made') w w' := by
  have hthere : ∀ c ∈ made, v.disk.get? c.location = some c.entry :=
    fun c hc => Disk.get?_of_lookAt (h.found c hc)
  refine ⟨(h.adds.trans h'.adds).mono fun l hl => ?_, ?_, fun c hc => ?_, fun c hc => ?_,
    fun c hc => ?_, ?_⟩
  · rw [List.map_append, List.mem_append]
    exact hl
  · rw [List.map_append, List.nodup_append]
    refine ⟨h.distinct, h'.distinct, fun l hl l' hl' heq => ?_⟩
    obtain ⟨c, hc, rfl⟩ := List.mem_map.1 hl
    obtain ⟨c', hc', rfl⟩ := List.mem_map.1 hl'
    have hfree := h'.free c' hc'
    rw [← heq, hthere c hc] at hfree
    cases hfree
  · obtain hc | hc := List.mem_append.1 hc
    · exact h.free c hc
    · exact h.adds.free_of_free (h'.free c hc)
  · obtain hc | hc := List.mem_append.1 hc
    · exact h.fresh c hc
    · obtain ⟨hdir, hfile⟩ := h'.fresh c hc
      exact ⟨hdir, fun id bytes hnode => Nat.le_trans h.adds.nextId (hfile id bytes hnode)⟩
  · obtain hc | hc := List.mem_append.1 hc
    · -- what was made before is neither modified nor written to
      obtain ⟨hdir, hfile⟩ := h.fresh c hc
      obtain ⟨e, hlook, hget⟩ := h'.adds.persists.find (h.found c hc)
      rw [h'.adds.eq_of_kept (hthere c hc) hdir fun id bytes hnode hlog =>
        absurd (ready.opened _ hlog) (Nat.not_lt_of_le (hfile id bytes hnode))] at hget
      rw [Disk.lookAt, hlook, Option.some.inj hget]
    · exact h'.found c hc
  · rw [h'.journal, h.journal, List.map_append, List.append_assoc]

theorem single {c : Creation} (adds : Disk.Adds sink (· = c.location) w.disk w'.disk)
    (free : w.disk.get? c.location = none) (fresh : c.entry.IsFresh w.disk)
    (found : w'.disk.lookAt c.path = .ok (c.location, c.entry))
    (journal : w'.journal.map (fun r => (r.sink, r.event)) =
      w.journal.map (fun r => (r.sink, r.event)) ++ [(sink, c.event)]) : Makes sink [c] w w' where
  adds := adds.mono fun _ hl => List.mem_singleton.2 hl
  distinct := List.nodup_singleton _
  free _ hc := List.mem_singleton.1 hc ▸ free
  fresh _ hc := List.mem_singleton.1 hc ▸ fresh
  found _ hc := List.mem_singleton.1 hc ▸ found
  journal := journal

/-- A loop makes what its actions make. -/
theorem forM {f : α → Action ε Unit} {xs : List α} {R : α → List Creation → Prop}
    (step : ∀ x ∈ xs, ∀ {w w' : World}, w.disk.Ready sink → (f x).run w = (.ok (), w') →
      ∃ made, Makes sink made w w' ∧ R x made)
    (ready : w.disk.Ready sink) (hrun : (xs.forM f).run w = (.ok (), w')) :
    ∃ parts, Makes sink parts.flatten w w' ∧ List.Forall₂ R xs parts := by
  induction xs generalizing w with
  | nil =>
    cases hrun
    exact ⟨[], nil ready, .nil⟩
  | cons x xs ih =>
    obtain ⟨⟨⟩, v, hx, hrest⟩ := Action.of_run_bind (a := f x) (f := fun _ => xs.forM f) hrun
    obtain ⟨made, hmade, hR⟩ := step x List.mem_cons_self ready hx
    obtain ⟨parts, hparts, hall⟩ := ih (fun y hy => step y (List.mem_cons_of_mem x hy))
      (hmade.adds.ready ready) hrest
    exact ⟨made :: parts, hmade.append ready hparts, .cons hR hall⟩

/-- A loop each of whose actions makes one entry. -/
theorem forM_single {f : α → Action ε Unit} {xs : List α} {R : α → Creation → Prop}
    (step : ∀ x ∈ xs, ∀ {w w' : World}, w.disk.Ready sink → (f x).run w = (.ok (), w') →
      ∃ c, Makes sink [c] w w' ∧ R x c)
    (ready : w.disk.Ready sink) (hrun : (xs.forM f).run w = (.ok (), w')) :
    ∃ made, Makes sink made w w' ∧ List.Forall₂ R xs made := by
  obtain ⟨parts, hmade, hall⟩ := forM (R := fun x made => ∃ c, made = [c] ∧ R x c)
    (fun x hx _ _ hw hrun =>
      let ⟨c, hc, hR⟩ := step x hx hw hrun
      ⟨[c], hc, c, rfl, hR⟩) ready hrun
  refine ⟨_, hmade, ?_⟩
  clear hmade hrun step
  induction hall with
  | nil => exact .nil
  | cons h _ ih =>
    obtain ⟨c, rfl, hR⟩ := h
    exact .cons hR ih

end Makes

/-! ## Making a file, and making a link -/

namespace Tree

theorem journal_makeParent (p : Path) (w : World) : ((makeParent p).run w).2.journal = w.journal := by
  unfold makeParent
  split
  · refine makeDirectoriesAlong_keeps (I := fun w' => w'.journal = w.journal) (fun q _ w' hw' => ?_)
      w rfl
    rw [Action.run_change]
    split <;> exact hw'
  · rfl

/-- The bytes that are written are those of a new file. -/
theorem adds_writeChunks {new : Location → Prop} {f : OpenFile} {sizes : List Nat}
    (free : u.get? f.location = none) (hnew : new f.location) :
    Always (Disk.Adds sink new u) (sizes.forM (writeChunk f)) fun _ => True :=
  Always.forM fun size _ => (Always.draw _).bind fun bytes _ => Always.change fun t d d' h hwrite => by
    cases hwrite
    exact ⟨h.store free hnew _, trivial⟩

/-- The bytes in the file and those that are left are as many before each chunk as after it, so the
file is longer in the end by all that were left. -/
theorem of_writeChunks {left : Nat} {f : OpenFile} {e : Entry} {old : Bytes}
    (hget : w.disk.get? f.location = some e) (hnode : e.node = .file f.id old)
    (hrun : ((chunks left).forM (writeChunk f)).run w = (.ok (), w')) :
    w'.journal = w.journal ∧ ∃ bytes t, bytes.size = old.size + left ∧
      w'.disk.get? f.location = some { e with node := .file f.id bytes, modified := t } := by
  induction left using Nat.strongRecOn generalizing w e old with
  | ind left ih =>
    rw [chunks_eq] at hrun
    split at hrun
    · next hnone =>
      cases hrun
      exact ⟨rfl, old, e.modified, by rw [hnone]; rfl, by rw [hget, ← hnode]⟩
    · next hsome =>
      have hpos : 0 < min left chunkSize := Nat.lt_min.2 ⟨Nat.pos_of_ne_zero hsome, by decide⟩
      have hle := Nat.min_le_left left chunkSize
      generalize min left chunkSize = size at hrun hpos hle
      obtain ⟨⟨⟩, v, hwrite, hrest⟩ := Action.of_run_bind (a := writeChunk f size)
        (f := fun _ => (chunks (left - size)).forM (writeChunk f)) hrun
      obtain ⟨chunk, v₁, hdraw, happend⟩ := Action.of_run_bind hwrite
      obtain ⟨rfl, rfl⟩ := Action.of_run_draw hdraw
      obtain ⟨d, happend, rfl⟩ := Action.of_run_change happend
      cases happend
      obtain ⟨journal, bytes, t, hsize, hthere⟩ :=
        ih (left - size) (by omega) (Disk.get?_append hget hnode) rfl hrest
      have hchunk : (w.source.bytes size).1.toArray.size = size := by
        rw [List.size_toArray, Source.length_bytes]
      refine ⟨journal, bytes, t, ?_, hthere⟩
      rw [hsize, Array.size_append, hchunk, Nat.add_assoc, Nat.add_sub_cancel' hle]

/-- A file is made at a free location, or nothing but directories. -/
theorem adds_makeFile {size : Nat} {time : Time} :
    Always (Disk.Adds sink (fun _ => True) u) (makeFile p size time) fun _ => True := by
  unfold makeFile
  refine Disk.Adds.makeParent.bind fun _ _ => ?_
  refine ((Always.request (Q := fun f : OpenFile => u.get? f.location = none)
    fun t d f d' h hmake => ?_).mapError _).bind fun f free =>
      (adds_writeChunks free trivial).bind fun _ _ => Always.change fun t d d' h hset => ?_
  · obtain ⟨dir, n, free, rfl, rfl⟩ := Disk.of_createNew hmake
    obtain ⟨isDir, isName⟩ := free.spot (h.sound p)
    exact ⟨h.addFile isDir free.free isName trivial,
      h.free_of_free (Disk.node?_eq_none_iff.1 free.free)⟩
  · cases hset
    exact ⟨h.setTimesAt free trivial _, trivial⟩

/-- A file that was made is found where nothing was, with as many bytes as were asked for. -/
theorem of_makeFile {size : Nat} {time : Time} (ready : w.disk.Ready sink)
    (hrun : (makeFile p size time).run w = (.ok (), w')) :
    ∃ l id bytes, bytes.size = size ∧ w.disk.nextId ≤ id ∧ w.disk.get? l = none ∧
      w'.disk.lookAt p = .ok (l, ⟨.file id bytes, fileMode, time, time⟩) ∧
      Disk.Adds sink (· = l) w.disk w'.disk ∧ w'.journal = w.journal := by
  unfold makeFile at hrun
  obtain ⟨⟨⟩, v, hparent, hrun⟩ := Action.of_run_bind hrun
  have journal := journal_makeParent p w
  have adds := (Disk.Adds.makeParent (p := p)).disk
    (.refl sink (fun _ => False) ready.tree ready.working)
  rw [hparent] at journal adds
  obtain ⟨f, v₁, hcreate, hrun⟩ := Action.of_run_bind hrun
  obtain ⟨⟨⟩, v₂, hwrite, hset⟩ := Action.of_run_bind hrun
  obtain ⟨d, hmake, rfl⟩ := Action.of_run_request (Action.of_run_mapError hcreate)
  obtain ⟨d₁, hset, rfl⟩ := Action.of_run_change hset
  cases hset
  obtain ⟨dir, n, htarget, hchild, rfl, rfl⟩ := Disk.target_of_createNew hmake
  have free := Disk.LeadsToFree.of_child htarget hchild
  obtain ⟨isDir, isName⟩ := free.spot (adds.sound p)
  have hfree := Disk.node?_eq_none_iff.1 free.free
  have hfile : Disk.Adds sink (· = dir ++ [n]) v.disk
      (v.disk.addFile (Action.time v) dir n fileMode) :=
    (Disk.Adds.refl _ (· = dir ++ [n]) adds.tree adds.working).addFile isDir free.free isName rfl
  have hkeeps : Always (Disk.Adds sink (· = dir ++ [n]) v.disk)
      ((chunks size).forM (writeChunk ⟨dir ++ [n], v.disk.nextId⟩)) fun _ => True :=
    adds_writeChunks hfree rfl
  have hwritten := (hkeeps _ _ _ hfile hwrite).1
  have hnew := Disk.get?_addFile v.disk (Action.time v) dir n fileMode
  obtain ⟨hjournal, bytes, t, hsize, hthere⟩ := of_writeChunks (f := ⟨dir ++ [n], v.disk.nextId⟩)
    hnew rfl hwrite
  have hadds := hwritten.setTimesAt hfree rfl time
  have htimes : (v₂.disk.setTimesAt (dir ++ [n]) time).get? (dir ++ [n]) =
      some ⟨.file v.disk.nextId bytes, fileMode, time, time⟩ := by
    rw [Disk.setTimesAt, Disk.get?_update, if_pos rfl, hthere]
    rfl
  refine ⟨dir ++ [n], v.disk.nextId, bytes, ?_, adds.nextId, ?_, ?_, ?_, hjournal.trans journal⟩
  · rw [hsize]
    exact Nat.zero_add size
  · exact adds.free_of_free hfree
  · exact Disk.lookAt_of_target (hadds.persists.target_keep hadds.tree htarget)
      (Disk.endsInSlash_of_target htarget) free.short htimes
  · exact (adds.mono fun _ => False.elim).step hadds

end Tree

namespace Verb

variable {env : Environment} {r : MakeRequest} {side : Side} {name pair : String}

/-- Writing an event adds nothing but a record. -/
theorem of_write {e : Event} (ready : w.disk.Ready env.sink)
    (hrun : (env.write e : Action ε Unit).run w = (.ok (), v)) :
    Disk.Adds env.sink (fun _ => False) w.disk v.disk ∧
      v.journal.map (fun r => (r.sink, r.event)) =
        w.journal.map (fun r => (r.sink, r.event)) ++ [(env.sink, e)] := by
  have adds := (Disk.Adds.write rfl : Always (ε := ε) _ (env.write e) _).disk
    (.refl env.sink (fun _ => False) ready.tree ready.working)
  rw [hrun] at adds
  unfold Environment.write at hrun
  rw [LogSink.run_write] at hrun
  obtain ⟨-, rfl⟩ := Prod.mk.inj hrun
  exact ⟨adds, List.map_append⟩

/-! ## `mkfile` -/

/-- A size that a file may be given. -/
def MakeRequest.Allows (r : MakeRequest) (size : Nat) : Prop :=
  r.min ≤ size ∧ (size < r.max ∨ r.min = r.max ∧ size = r.min)

/-- The file that was made for a name. -/
structure MakeRequest.MakesFile (r : MakeRequest) (env : Environment) (side : Side) (name : String)
    (c : Creation) : Prop where
  path : c.path = env.resolve side name
  file : ∃ id bytes, c.entry = ⟨.file id bytes, Tree.fileMode, env.start, env.start⟩ ∧
    r.Allows bytes.size ∧ c.event = .makeFile c.path bytes.size

theorem MakeRequest.min_le_max {arguments : List String}
    (h : MakeRequest.read arguments = .ok r) : r.min ≤ r.max := by
  unfold MakeRequest.read at h
  obtain ⟨found, -, h⟩ := of_bind_eq_ok h
  simp only at h
  split at h
  · cases h
  · next hle =>
    split at h
    · obtain ⟨-, -, h⟩ := of_bind_eq_ok h
      cases h
      exact Nat.le_of_not_lt hle
    · cases h
      exact Nat.le_of_not_lt hle

theorem of_drawSize {size : Nat} (hle : r.min ≤ r.max)
    (hrun : (drawSize r.min r.max).run w = (.ok size, v)) :
    r.Allows size ∧ v.disk = w.disk ∧ v.journal = w.journal := by
  unfold drawSize at hrun
  split at hrun
  · next hlt =>
    obtain ⟨rfl, rfl⟩ := Action.of_run_draw hrun
    have hsize := (w.source.between r.min r.max hlt).1.2
    exact ⟨⟨hsize.1, .inl hsize.2⟩, rfl, rfl⟩
  · next hge =>
    cases hrun
    exact ⟨⟨Nat.le_refl _, .inr ⟨by omega, rfl⟩⟩, rfl, rfl⟩

theorem makes_makeEntry (files : r.directories = false) (hle : r.min ≤ r.max)
    (ready : w.disk.Ready env.sink) (hrun : (makeEntry env r name).run w = (.ok (), w')) :
    ∃ c, Makes env.sink [c] w w' ∧ r.MakesFile env r.target.first name c := by
  unfold makeEntry at hrun
  simp only [files, Bool.false_eq_true, if_false] at hrun
  obtain ⟨size, v, hdraw, hrun⟩ := Action.of_run_bind hrun
  obtain ⟨⟨⟩, v₁, hwrite, hrun⟩ := Action.of_run_bind hrun
  obtain ⟨hsize, hdisk, hjournal⟩ := of_drawSize hle hdraw
  obtain ⟨hlog, hrecord⟩ := of_write (hdisk ▸ ready) hwrite
  obtain ⟨l, id, bytes, rfl, hid, hfree, hfound, hadds, hjournal'⟩ :=
    Tree.of_makeFile (hlog.ready (hdisk ▸ ready)) hrun
  rw [hdisk] at hlog
  refine ⟨⟨env.resolve r.target.first name, l, ⟨.file id bytes, Tree.fileMode, env.start, env.start⟩,
    .makeFile (env.resolve r.target.first name) bytes.size⟩, .single
    ((hlog.mono nofun).step hadds) (hlog.free_of_free hfree) ⟨nofun, ?_⟩ hfound ?_,
    rfl, id, bytes, rfl, hsize, rfl⟩
  · rintro _ _ ⟨⟩
    exact Nat.le_trans hlog.nextId hid
  · rw [hjournal', hrecord, hjournal]

/-- `mkfile` on one side, or the first of its two parts, only adds to the disk. -/
theorem adds_makeEntry (env : Environment) (r : MakeRequest) (name : String) :
    Always (Disk.Adds env.sink (fun _ => True) u) (makeEntry env r name) fun _ => True := by
  unfold makeEntry
  simp only
  split
  · exact (Disk.Adds.write rfl).bind fun _ _ => Disk.Adds.makeDirectory
  · refine Always.bind (Q := fun _ => True) ?_ fun size _ =>
      (Disk.Adds.write rfl).bind fun _ _ => Tree.adds_makeFile
    unfold drawSize
    split
    · exact .draw _
    · exact .pure trivial

theorem adds_make (env : Environment) (arguments : List String)
    (single : ∀ r, MakeRequest.read arguments = .ok r → r.target ≠ .both) :
    Always (Disk.Adds env.sink (fun _ => True) u) (make env arguments) fun _ => True := by
  unfold make
  refine Always.bind (Q := fun r => MakeRequest.read arguments = .ok r)
    (Always.ask fun _ _ _ hr => hr) fun r hr => ?_
  refine (Always.forM fun name _ => adds_makeEntry env r name).bind fun _ _ => ?_
  rw [if_neg (single r hr)]
  exact .pure trivial

/-- A file is made for each name. -/
theorem makes_make {arguments : List String}
    (single : ∀ r, MakeRequest.read arguments = .ok r → r.target ≠ .both)
    (ready : w.disk.Ready env.sink) (hrun : (make env arguments).run w = (.ok (), w')) :
    ∃ r side, MakeRequest.read arguments = .ok r ∧ r.target = .side side ∧
      (r.directories = false → ∃ files, Makes env.sink files w w' ∧
        List.Forall₂ (r.MakesFile env side) r.names files) := by
  unfold make at hrun
  obtain ⟨r, v, hread, hrun⟩ := Action.of_run_bind hrun
  rw [Action.run_ask, Prod.mk.injEq] at hread
  obtain ⟨hread, rfl⟩ := hread
  obtain ⟨⟨⟩, v, hmade, hrun⟩ := Action.of_run_bind hrun
  rw [if_neg (single r hread)] at hrun
  cases hrun
  cases htarget : r.target with
  | both => exact absurd htarget (single r hread)
  | side side =>
    refine ⟨r, side, hread, htarget, fun files => ?_⟩
    have hfirst : r.target.first = side := by rw [htarget]; rfl
    exact hfirst ▸ Makes.forM_single (fun name _ _ _ hw => makes_makeEntry files
      (MakeRequest.min_le_max hread) hw) ready hmade

/-! ## `symlink` -/

/-- The link that was made for a pair of names. -/
structure MakesLink (env : Environment) (side : Side) (pair : String) (c : Creation) : Prop where
  link : ∃ new old, readLink pair = .ok (new, old) ∧ c.path = env.resolve side new ∧
    (∃ t, c.entry = ⟨.symlink (env.resolve side old), 0o777, t, t⟩) ∧
    c.event = .link c.path (env.resolve side old)

theorem makes_linkEntry (ready : w.disk.Ready env.sink)
    (hrun : (linkEntry env side pair).run w = (.ok (), w')) :
    ∃ c, Makes env.sink [c] w w' ∧ MakesLink env side pair c := by
  unfold linkEntry at hrun
  obtain ⟨⟨new, old⟩, v, hread, hrun⟩ := Action.of_run_bind hrun
  rw [Action.run_ask, Prod.mk.injEq] at hread
  obtain ⟨hread, rfl⟩ := hread
  obtain ⟨⟨⟩, v, hparent, hrun⟩ := Action.of_run_bind hrun
  obtain ⟨⟨⟩, v₁, hwrite, hrun⟩ := Action.of_run_bind hrun
  have hjournal := Tree.journal_makeParent (env.resolve side new) w
  have hdirs := (Disk.Adds.makeParent (p := env.resolve side new)).disk
    (.refl env.sink (fun _ => False) ready.tree ready.working)
  rw [hparent] at hjournal hdirs
  obtain ⟨hlog, hrecord⟩ := of_write (hdirs.ready ready) hwrite
  obtain ⟨d, hmake, rfl⟩ := Action.of_run_change (Action.of_run_mapError hrun)
  obtain ⟨dir, n, htarget, hchild, rfl⟩ := Disk.target_of_makeLink hmake
  have free := Disk.LeadsToFree.of_child htarget hchild
  have hbefore := hdirs.step hlog
  obtain ⟨isDir, isName⟩ := free.spot (hbefore.sound _)
  have hfree := Disk.node?_eq_none_iff.1 free.free
  have hadds : Disk.Adds env.sink (· = dir ++ [n]) v₁.disk
      (v₁.disk.addEntry (Action.time v₁) dir n (.symlink (env.resolve side old)) 0o777) :=
    (Disk.Adds.refl _ (· = dir ++ [n]) hbefore.tree hbefore.working).addEntry isDir free.free isName
      (.inl rfl)
  have hthere := (Disk.get?_addEntry v₁.disk (Action.time v₁) dir n
    (.symlink (env.resolve side old)) 0o777 (dir ++ [n])).trans (if_pos rfl)
  refine ⟨⟨env.resolve side new, dir ++ [n], _, .link (env.resolve side new) (env.resolve side old)⟩,
    .single ((hbefore.mono nofun).step hadds) (hbefore.free_of_free hfree) ⟨by simp, by simp⟩
      (Disk.lookAt_of_target (hadds.persists.target_keep hadds.tree htarget)
        (Disk.endsInSlash_of_target htarget) free.short hthere) ?_,
    ⟨new, old, hread, rfl, ⟨Action.time v₁, rfl⟩, rfl⟩⟩
  exact hrecord.trans (by rw [hjournal])

theorem adds_linkEntry (env : Environment) (side : Side) (pair : String) :
    Always (Disk.Adds env.sink (fun _ => True) u) (linkEntry env side pair) fun _ => True := by
  unfold linkEntry
  refine (Always.ask (Q := fun _ => True) fun _ _ _ _ => trivial).bind fun x _ =>
    Disk.Adds.makeParent.bind fun _ _ => (Disk.Adds.write rfl).bind fun _ _ =>
      (Always.change fun t d d' h hmake => ?_).named _ _
  obtain ⟨dir, n, free, rfl⟩ := Disk.of_makeLink hmake
  obtain ⟨isDir, isName⟩ := free.spot (h.sound _)
  exact ⟨h.addEntry isDir free.free isName (.inl trivial), trivial⟩

theorem adds_link (env : Environment) (arguments : List String) :
    Always (Disk.Adds env.sink (fun _ => True) u) (link env arguments) fun _ => True := by
  have each : Always (Disk.Adds env.sink (fun _ => True) u)
      (forEachSided arguments (linkEntry env)) fun _ => True :=
    Always.forM fun argument _ =>
      (Always.ask (Q := fun _ : Side × List String => True) fun _ _ _ _ => trivial).bind fun x _ =>
        Always.forM fun pair _ => adds_linkEntry env x.1 pair
  unfold link
  simp only
  split
  · exact (Always.throw (Q := fun _ => True) _).bind fun _ _ => each
  · exact each

/-- A link is made for each pair of names of each argument. -/
theorem makes_link {arguments : List String} (ready : w.disk.Ready env.sink)
    (hrun : (link env arguments).run w = (.ok (), w')) :
    ∃ links, Makes env.sink links.flatten w w' ∧ List.Forall₂ (fun argument made => ∃ side pairs,
      readSided argument = .ok (side, pairs) ∧ List.Forall₂ (MakesLink env side) pairs made)
        arguments links := by
  unfold link at hrun
  simp only at hrun
  split at hrun
  · cases hrun
  refine Makes.forM (fun argument _ w w' hw hrun => ?_) ready hrun
  obtain ⟨⟨side, pairs⟩, v, hread, hrun⟩ := Action.of_run_bind hrun
  rw [Action.run_ask, Prod.mk.injEq] at hread
  obtain ⟨hread, rfl⟩ := hread
  obtain ⟨made, hmade, hall⟩ := Makes.forM_single (R := MakesLink env side)
    (fun pair _ _ _ hw => makes_linkEntry hw) hw hrun
  exact ⟨made, hmade, side, pairs, hread, hall⟩

/-- `mkfile` on one side and `symlink` only add to the disk, whether or not they succeed. If they do,
each name stands for a new file of a size that was asked for, or for a new link, and what is new
otherwise are the directories that were missing. -/
theorem single_sided_creation_adds (env : Environment) (arguments : List String) {w : World}
    (ready : w.disk.Ready env.sink) :
    ((∀ r, MakeRequest.read arguments = .ok r → r.target ≠ .both) →
      Disk.Adds env.sink (fun _ => True) w.disk ((make env arguments).run w).2.disk ∧
        (((make env arguments).run w).1 = .ok () →
          ∃ r side, MakeRequest.read arguments = .ok r ∧ r.target = .side side ∧
            (r.directories = false → ∃ files, Makes env.sink files w ((make env arguments).run w).2 ∧
              List.Forall₂ (r.MakesFile env side) r.names files))) ∧
    Disk.Adds env.sink (fun _ => True) w.disk ((link env arguments).run w).2.disk ∧
      (((link env arguments).run w).1 = .ok () →
        ∃ links, Makes env.sink links.flatten w ((link env arguments).run w).2 ∧
          List.Forall₂ (fun argument made => ∃ side pairs, readSided argument = .ok (side, pairs) ∧
            List.Forall₂ (MakesLink env side) pairs made) arguments links) := by
  have start : Disk.Adds env.sink (fun _ => True) w.disk w.disk := .refl _ _ ready.tree ready.working
  refine ⟨fun single => ⟨(adds_make env arguments single).disk start, fun hok => ?_⟩,
    (adds_link env arguments).disk start, fun hok => ?_⟩
  · exact makes_make single ready (Prod.ext hok rfl)
  · exact makes_link ready (Prod.ext hok rfl)

/-- Two files in a new directory, of which the second is made through a link that was there, and a
link beside them. -/
theorem single_sided_creation_adds_nested :
    let entry : Node → Entry := fun node => ⟨node, 0o755, ⟨0, 0⟩, ⟨0, 0⟩⟩
    let d : Disk := ⟨[([], entry .directory), (["lhs".toList], entry .directory),
      (["lhs".toList, "l".toList], entry (.symlink ⟨"d"⟩)),
      (["log".toList], entry (.file 0 #[1]))], 1, []⟩
    let w : World := ⟨⟨d, []⟩, .seeded 0, fun n => ⟨n, 0⟩, 0⟩
    let env : Environment := ⟨"a.t", ⟨"/"⟩, ⟨"/lhs"⟩, ⟨"/rhs"⟩, ⟨9, 0⟩, 1,
      .file ⟨"/log"⟩ ⟨["log".toList], 0⟩⟩
    let files := ["-m1", "-M3", "d/f", "l/g"]
    let links := ["lhs=n@d/f"]
    d.Ready env.sink ∧
      (∃ r, MakeRequest.read files = .ok r ∧ ∃ made, Makes env.sink made w ((make env files).run w).2 ∧
        List.Forall₂ (r.MakesFile env .lhs) ["d/f", "l/g"] made) ∧
      ∃ made, Makes env.sink made.flatten w ((link env links).run w).2 ∧
        List.Forall₂ (fun argument made => ∃ side pairs, readSided argument = .ok (side, pairs) ∧
          List.Forall₂ (MakesLink env side) pairs made) links made := by
  intro entry d w env files links
  have ready : d.Ready env.sink := by
    refine ⟨.of_entries (by decide) rfl (by decide), by decide, ?_⟩
    rintro f ⟨path, hf⟩
    cases hf
    decide
  have hmade : ((make env files).run w).1 = .ok () := eq_ok_of_toOption (by decide +kernel)
  have hlinked : ((link env links).run w).1 = .ok () := eq_ok_of_toOption (by decide +kernel)
  have hread : ∀ r, MakeRequest.read files = .ok r →
      r.target = .side .lhs ∧ r.directories = false ∧ r.names = ["d/f", "l/g"] := by
    have hfields : (MakeRequest.read files).toOption.map (fun r => (r.target, r.directories, r.names)) =
        some (.side .lhs, false, ["d/f", "l/g"]) := by decide +kernel
    intro r hr
    rw [hr] at hfields
    simpa using Option.some.inj hfields
  obtain ⟨hmake, -⟩ := single_sided_creation_adds env files (w := w) ready
  obtain ⟨-, -, hlink⟩ := single_sided_creation_adds env links (w := w) ready
  obtain ⟨r, side, hr, hside, hfiles⟩ :=
    (hmake fun r hr hboth => by cases hboth.symm.trans (hread r hr).1).2 hmade
  obtain ⟨htarget, hdir, hnames⟩ := hread r hr
  cases hside.symm.trans htarget
  obtain ⟨made, hmakes, hall⟩ := hlink hlinked
  exact ⟨ready, ⟨r, hr, hnames ▸ hfiles hdir⟩, made, hmakes, hall⟩

/-- A directory that was missing does not always get the bits `0o700`: in one with the bit for it, it
gets that bit as well. -/
theorem new_directory_inherits_bit :
    let entry : Mode → Entry := fun mode => ⟨.directory, mode, ⟨0, 0⟩, ⟨0, 0⟩⟩
    let d : Disk := ⟨[([], entry 0o755), (["lhs".toList], entry 0o2755)], 0, []⟩
    let w : World := ⟨⟨d, []⟩, .seeded 0, fun n => ⟨n, 0⟩, 0⟩
    let env : Environment := ⟨"a.t", ⟨"/"⟩, ⟨"/lhs"⟩, ⟨"/rhs"⟩, ⟨9, 0⟩, 1, .console⟩
    let made := (make env ["-m1", "-M1", "d/f"]).run w
    made.1.toOption = some () ∧ w.disk.get? ["lhs".toList, "d".toList] = none ∧
      (made.2.disk.get? ["lhs".toList, "d".toList]).map (fun e => (e.node, e.mode)) =
        some (.directory, 0o2700) := by
  decide +kernel

end Verb

end TwinTrees
