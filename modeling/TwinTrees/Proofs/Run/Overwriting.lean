import TwinTrees.Proofs.Outcome
import TwinTrees.Proofs.Run.Staging
import TwinTrees.Proofs.Verb.Creation

/-!
# Which files `mkfile` overwrites

An entry is never made where one is. With both sides, though, `mkfile` copies what it has made on the
left to the right, and the copy of a file is written to whatever file the path of the copy leads to
(`Run.make_overwrites_right`). No other file gets other bytes, on either side and whether or not the
command succeeds (`Verb.make_spares`). With `-d` there is no file to be copied.
-/

namespace TwinTrees

open TwinTrees.Action (Always Leaves)

variable {sink : LogSink} {dirs paths : List Path} {u d d' : Disk} {p target source : Path}
  {f : OpenFile} {l : Location} {t : Time} {ε : Type}

/-- The file at a location has the bytes that it had, or is the log, which gets longer. -/
def Disk.HoldsStill (sink : LogSink) (d : Disk) (l : Location) (id : Nat) (bytes : Bytes) : Prop :=
  ∃ more, d.node? l = some (.file id (bytes ++ more)) ∧ (more = #[] ∨ sink.WritesTo ⟨l, id⟩)

/-- Only files to which one of the `paths` leads have got other bytes since the disk was `u`. None of
the `dirs` leads to a file. -/
structure Disk.Spares (sink : LogSink) (dirs paths : List Path) (u d : Disk) : Prop where
  tree : d.IsTree
  working : d.IsDir d.workingDirectory
  persists : Disk.Persists u d
  dirs : ∀ p ∈ dirs, p.text.isEmpty = true ∨ d.isDirectory p = true
  files : ∀ l id bytes, u.node? l = some (.file id bytes) →
    d.HoldsStill sink l id bytes ∨ ∃ p ∈ paths, ∃ e, d.find true p = .ok (l, e)

namespace Disk.Spares

theorem start (paths : List Path) (tree : u.IsTree) (working : u.IsDir u.workingDirectory) :
    Spares sink [] paths u u :=
  ⟨tree, working, .refl _, nofun, fun l id bytes hl => .inl ⟨#[], by simpa using hl, .inl rfl⟩⟩

/-- What only adds to the disk spares all files. -/
theorem adds {new : Location → Prop} (h : Spares sink dirs paths u d) (hadds : Adds sink new d d') :
    Spares sink dirs paths u d' where
  tree := hadds.tree
  working := hadds.working
  persists := h.persists.trans hadds.persists
  dirs p hp := (h.dirs p hp).imp_right hadds.persists.isDirectory
  files l id bytes hl := by
    refine (h.files l id bytes hl).imp ?_ ?_
    · rintro ⟨more, hnode, hlog⟩
      obtain ⟨old, hold, hfile⟩ := node?_eq_some_iff.1 hnode
      obtain ⟨e, he, hkept⟩ := hadds.kept l old hold
      cases hkept with
      | same => exact ⟨more, by rw [node?_of_get? he, hfile], hlog⟩
      | listed isDir => cases isDir.symm.trans hfile
      | logged isFile log more' t =>
        cases hfile.symm.trans isFile
        exact ⟨more ++ more', by rw [node?_of_get? he, Array.append_assoc], .inr log⟩
    · rintro ⟨p, hp, e, hfind⟩
      obtain ⟨e', hfind', -⟩ := hadds.persists.find hfind
      exact ⟨p, hp, e', hfind'⟩

/-- The file is new, or one of the paths leads to it. -/
def Open (paths : List Path) (u d : Disk) (f : OpenFile) : Prop :=
  u.node? f.location = none ∨ ∃ p ∈ paths, ∃ e, d.find true p = .ok (f.location, e)

/-- Bytes are written to a file. -/
theorem store (h : Spares sink dirs paths u d) (hopen : Open paths u d f) (bytes : Bytes) :
    Spares sink dirs paths u (d.store t f bytes) := by
  have hpersists : Persists d (d.store t f bytes) := persists_store
  refine ⟨h.tree.store, h.working.store, h.persists.trans hpersists,
    fun p hp => (h.dirs p hp).imp_right hpersists.isDirectory, fun l id old hl => ?_⟩
  obtain hstill | ⟨p, hp, e, hfind⟩ := h.files l id old hl
  · by_cases heq : l = f.location
    · obtain hnew | ⟨p, hp, e, hfind⟩ := hopen
      · rw [← heq, hl] at hnew
        cases hnew
      · obtain ⟨e', hfind', -⟩ := hpersists.find hfind
        exact .inr ⟨p, hp, e', heq ▸ hfind'⟩
    · refine .inl ?_
      unfold HoldsStill at hstill ⊢
      rw [node?, get?_store_of_ne heq]
      exact hstill
  · obtain ⟨e', hfind', -⟩ := hpersists.find hfind
    exact .inr ⟨p, hp, e', hfind'⟩

theorem makeDirectories {mode : Mode} :
    Always (Spares sink dirs paths u) (Tree.makeDirectories p mode) fun _ => True :=
  Always.of_disk fun _ h => h.adds <| (Adds.makeDirectories (.inl fun _ => trivial)).disk
    (.refl sink (fun _ => True) h.tree h.working)

theorem makeParent : Always (Spares sink dirs paths u) (Tree.makeParent p) fun _ => True :=
  Always.of_disk fun _ h => h.adds <|
    Adds.makeParent.disk (.refl sink (fun _ => True) h.tree h.working)

/-- A file is copied to where one of the paths leads. -/
theorem copyFile (hp : target ∈ paths) (size : Nat) : Leaves (Spares sink dirs paths u)
    (Tree.copyFile target source size) (fun _ => Spares sink dirs paths u)
    (Spares sink dirs paths u) := by
  unfold Tree.copyFile
  refine ((Leaves.ask (Q := fun _ => Spares sink dirs paths u) (fun _ _ h _ => h)
    fun _ => id).named _ _).bind fun input => ?_
  refine ((Leaves.request (Q := fun f d => Spares sink dirs paths u d ∧ Open paths u d f)
    (fun t d copy d' h hmake => ?_) fun _ => id).named _ _).bind fun copy => ?_
  · obtain ⟨dir, n, htarget, hlocation, ⟨free, -, rfl⟩ | ⟨bytes, hnode, rfl⟩⟩ :=
      of_openOrCreate hmake
    · obtain ⟨isDir, isName⟩ := free.spot (.of_working h.tree h.working)
      have hadds : Adds sink (fun _ => True) d (d.addFile t dir n Tree.fileMode) :=
        (Adds.refl _ _ h.tree h.working).addFile isDir free.free isName trivial
      exact ⟨h.adds hadds, .inl (hlocation ▸ h.persists.free free.free)⟩
    · obtain ⟨e, he, hfile⟩ := node?_eq_some_iff.1 hnode
      have hfind : d.find true target = .ok (copy.location, e) := by
        rw [hlocation]
        exact find_of_target h.tree htarget he (by rw [hfile]; nofun)
      rw [if_pos rfl]
      refine ⟨h.store (.inr ⟨target, hp, e, hfind⟩) #[], .inr ⟨target, hp, ?_⟩⟩
      have hpersists : Persists d (d.store t copy #[]) := persists_store
      obtain ⟨e', hfind', -⟩ := hpersists.find hfind
      exact ⟨e', hfind'⟩
  refine (Leaves.ask (Q := fun _ d => Spares sink dirs paths u d ∧ Open paths u d copy)
    (fun _ _ h _ => h) fun _ h => h.1).bind fun bytes =>
      (Leaves.change (Q := fun _ => Spares sink dirs paths u) (fun t d d' h happend => ?_)
        fun _ h => h.1).bind fun _ => ?_
  · cases happend
    exact h.1.store h.2 _
  · split
    · exact .throw fun _ => id
    · exact .pure fun _ => id

/-- The copy of an entry that is a file, and is at no path of a directory, goes to one of the
paths. -/
theorem copyEntry (hp : source ∈ dirs ∨ target ∈ paths) : Leaves (Spares sink dirs paths u)
    (Tree.copyEntry target source) (fun _ => Spares sink dirs paths u)
    (Spares sink dirs paths u) := by
  unfold Tree.copyEntry
  refine ((Leaves.ask (Q := fun found d => Spares sink dirs paths u d ∧
    d.lookAt source = .ok found) (fun _ _ h hlook => ⟨h, hlook⟩) fun _ => id).named _ _).bind
      fun ⟨l, e⟩ => ?_
  cases hnode : e.node with
  | directory =>
    simp only [hnode]
    exact (Leaves.of_always (makeDirectories.named _ _) (fun _ _ h _ => h) fun _ => id).pre
      fun _ h => h.1
  | symlink old =>
    simp only [hnode]
    refine ((Leaves.of_always makeParent (Q := fun _ => Spares sink dirs paths u)
      (fun _ _ h _ => h) fun _ => id).pre fun _ h => h.1).bind fun _ =>
        (Leaves.change (fun t d d' h hmake => ?_) fun _ => id).named _ _
    obtain ⟨dir, n, free, rfl⟩ := of_makeLink hmake
    obtain ⟨isDir, isName⟩ := free.spot (.of_working h.tree h.working)
    exact h.adds ((Adds.refl sink (fun _ => True) h.tree h.working).addEntry isDir free.free isName
      (.inl trivial))
  | file i bytes =>
    simp only [hnode]
    refine Leaves.given (φ := source ∉ dirs) (fun d ⟨h, hlook⟩ hsource => ?_) fun hsource => ?_
    · -- what is found at a path of a directory is no file
      have hfind := find_of_lookAt h.tree hlook (by rw [hnode]; nofun)
      obtain hempty | hdir := h.dirs source hsource
      · obtain ⟨_, htarget, -⟩ := of_find hfind
        rw [(of_target_eq_ok htarget).1.nonempty] at hempty
        cases hempty
      · rw [isDirectory, hfind] at hdir
        simp only [hnode] at hdir
        cases hdir
    · exact ((Leaves.of_always makeParent (Q := fun _ => Spares sink dirs paths u)
        (fun _ _ h _ => h) fun _ => id).pre fun _ h => h.1).bind fun _ =>
          copyFile (hp.resolve_left hsource) _

/-- What spares files leaves disks that can be worked on, and takes nothing away. -/
theorem grows {act : Action ε Unit} (h : ∀ u, Leaves (Spares .console [] paths u) act
    (fun _ => Spares .console [] paths u) (Spares .console [] paths u)) (u : Disk) :
    Always (fun d => (d.IsTree ∧ d.IsDir d.workingDirectory) ∧ Persists u d) act fun _ => True := by
  refine Always.of_disk fun w ⟨⟨tree, working⟩, persists⟩ => ?_
  have hspares := (h w.disk).disk (.start _ tree working)
  exact ⟨⟨hspares.tree, hspares.working⟩, persists.trans hspares.persists⟩

end Disk.Spares

namespace Verb

variable {env : Environment} {r : MakeRequest} {w v : World} {names : List String}

/-- The copies of entries go to the right side. -/
theorem spares_copyAcross (hnames : ∀ name ∈ names, env.resolve .lhs name ∈ dirs ∨
    env.resolve .rhs name ∈ paths) : Leaves (Disk.Spares env.sink dirs paths u)
    (names.forM (copyAcross env)) (fun _ => Disk.Spares env.sink dirs paths u)
    (Disk.Spares env.sink dirs paths u) := by
  refine Leaves.forM (I := fun _ => Disk.Spares env.sink dirs paths u) fun name rest hrest => ?_
  have hlog : Always (ε := CommandError) (Disk.Spares env.sink dirs paths u)
      (env.write (.copy (env.resolve .lhs name) (env.resolve .rhs name))) fun _ => True :=
    Always.of_disk fun _ h => h.adds <| (Disk.Adds.write rfl).disk
      (.refl _ (fun _ => True) h.tree h.working)
  exact (Leaves.of_always hlog (fun _ _ h _ => h) fun _ => id).bind fun _ =>
    Disk.Spares.copyEntry (hnames name (hrest.subset List.mem_cons_self))

/-- After directories were made for all names, there is one at each of their paths. -/
theorem isDirectory_of_makeEntry (directories : r.directories = true) (tree : w.disk.IsTree)
    (working : w.disk.IsDir w.disk.workingDirectory)
    (hrun : (names.forM (makeEntry env r)).run w = (.ok (), v)) :
    ∀ name ∈ names, (env.resolve r.target.first name).text.isEmpty = true ∨
      v.disk.isDirectory (env.resolve r.target.first name) = true := by
  induction names generalizing w with
  | nil => exact nofun
  | cons name names ih =>
    obtain ⟨⟨⟩, v₁, hfirst, hrest⟩ := Action.of_run_bind (a := makeEntry env r name)
      (f := fun _ => names.forM (makeEntry env r)) hrun
    have hadds := (adds_makeEntry env r name).disk
      (.refl _ (fun _ => True) tree working)
    rw [hfirst] at hadds
    have hlater := (Always.forM fun name _ => adds_makeEntry env r name : Always _
      (names.forM (makeEntry env r)) _).disk (.refl _ (fun _ => True) hadds.tree hadds.working)
    rw [hrest] at hlater
    intro name' hname'
    obtain rfl | hname' := List.mem_cons.1 hname'
    · unfold makeEntry at hfirst
      simp only [directories, if_true] at hfirst
      obtain ⟨⟨⟩, v₂, hwrite, hmake⟩ := Action.of_run_bind hfirst
      have hlog := (Disk.Adds.write rfl : Always (ε := CommandError) _
        (env.write (.makeDirectory (env.resolve r.target.first name'))) _).disk
          (.refl env.sink (fun _ => True) tree working)
      rw [hwrite] at hlog
      cases hempty : (env.resolve r.target.first name').text.isEmpty with
      | true => exact .inl rfl
      | false =>
        have hrun := Action.of_run_mapError hmake
        obtain ⟨hthere, -⟩ := Tree.of_makeDirectories Tree.directoryMode (hlog.sound _) hempty
          (congrArg Prod.fst hrun)
        rw [hrun] at hthere
        exact .inr (hlater.persists.isDirectory hthere)
    · exact ih hadds.tree hadds.working hrest name' hname'

/-- `mkfile` leaves the bytes of all files as they were, whether or not it succeeds, but for those to
which it copies the files that it has made on the left: with both sides and without `-d`, once all of
them are made, a file is overwritten to which the path of a name leads on the right. -/
theorem make_spares (env : Environment) (arguments : List String) {w : World}
    (tree : w.disk.IsTree) (working : w.disk.IsDir w.disk.workingDirectory) {l : Location} {id : Nat}
    {bytes : Bytes} (there : w.disk.node? l = some (.file id bytes)) :
    ((make env arguments).run w).2.disk.HoldsStill env.sink l id bytes ∨
    ∃ r, MakeRequest.read arguments = .ok r ∧ r.target = .both ∧ r.directories = false ∧
      ((r.names.forM (makeEntry env r)).run w).1 = .ok () ∧
      ∃ name ∈ r.names, ∃ e, ((make env arguments).run w).2.disk.find true (env.resolve .rhs name) =
        .ok (l, e) := by
  have start : ∀ paths, Disk.Spares env.sink [] paths w.disk w.disk := fun paths =>
    .start paths tree working
  have none_spared : ∀ {d}, Disk.Spares env.sink [] [] w.disk d → d.HoldsStill env.sink l id bytes :=
    fun h => (h.files l id bytes there).resolve_right fun ⟨_, hp, _⟩ => nomatch hp
  unfold make
  rw [Action.run_bind, Action.run_ask]
  cases hread : MakeRequest.read arguments with
  | error e => exact .inl (none_spared (start []))
  | ok r =>
    simp only
    rw [Action.run_bind]
    have hadds := (Always.forM fun name _ => adds_makeEntry env r name : Always _
      (r.names.forM (makeEntry env r)) _).disk (.refl _ (fun _ => True) tree working)
    cases hfirst : (r.names.forM (makeEntry env r)).run w with
    | mk x v =>
      rw [hfirst] at hadds
      cases x with
      | error e => exact .inl (none_spared ((start []).adds hadds))
      | ok u =>
        simp only
        split
        · next both =>
          cases hdir : r.directories with
          | true =>
            have hdirs := isDirectory_of_makeEntry hdir tree working hfirst
            rw [both] at hdirs
            have hspares : Disk.Spares env.sink (r.names.map (env.resolve .lhs)) [] w.disk v.disk :=
              { (start []).adds hadds with
                dirs := fun p hp => by
                  obtain ⟨name, hname, rfl⟩ := List.mem_map.1 hp
                  exact hdirs name hname }
            have hsecond := (spares_copyAcross fun name hname =>
              .inl (List.mem_map_of_mem hname)).disk hspares
            exact .inl ((hsecond.files l id bytes there).resolve_right
              fun ⟨_, hp, _⟩ => nomatch hp)
          | false =>
            have hsecond := (spares_copyAcross fun name hname =>
              .inr (List.mem_map_of_mem hname)).disk
                ((start (r.names.map (env.resolve .rhs))).adds hadds)
            refine (hsecond.files l id bytes there).imp_right fun ⟨p, hp, e, hfind⟩ => ?_
            obtain ⟨name, hname, rfl⟩ := List.mem_map.1 hp
            exact ⟨r, rfl, both, hdir, congrArg Prod.fst hfirst, name, hname, e, hfind⟩
        · exact .inl (none_spared ((start []).adds hadds))

/-- A file on the right is left as it is by `mkfile` on that side, which cannot make its name. -/
theorem make_spares_existing :
    let entry : Node → Entry := fun node => ⟨node, 0o755, ⟨0, 0⟩, ⟨0, 0⟩⟩
    let f : Location := ["rhs".toList, "x".toList]
    let d : Disk := ⟨[([], entry .directory), (["lhs".toList], entry .directory),
      (["rhs".toList], entry .directory), (f, entry (.file 0 #[1]))], 1, []⟩
    let w : World := ⟨⟨d, []⟩, .seeded 0, fun n => ⟨n, 0⟩, 0⟩
    let env : Environment := ⟨"a.t", ⟨"/"⟩, ⟨"/lhs"⟩, ⟨"/rhs"⟩, ⟨9, 0⟩, 1, .console⟩
    d.IsTree ∧ d.IsDir d.workingDirectory ∧ d.node? f = some (.file 0 #[1]) ∧
      ((make env ["-t", "rhs", "-m2", "-M2", "x"]).run w).2.disk.HoldsStill .console f 0 #[1] := by
  intro entry f d w env
  have tree : d.IsTree := .of_entries (by decide) rfl (by decide)
  refine ⟨tree, by decide, by decide, (make_spares env ["-t", "rhs", "-m2", "-M2", "x"] (w := w) tree
    (by decide) (by decide : d.node? f = some (.file 0 #[1]))).resolve_right ?_⟩
  rintro ⟨r, hread, hboth, -⟩
  have hside : (MakeRequest.read ["-t", "rhs", "-m2", "-M2", "x"]).toOption.map (·.target) =
      some (.side .rhs) := by decide +kernel
  rw [hread] at hside
  cases hboth.symm.trans (Option.some.inj hside)

end Verb

namespace Run

/-- The last command of a script is an `mkfile`, and a file has other bytes after it. -/
def MakeOverwrites (r : Run) (file : Path) (w : World) (l : Location) : Prop :=
  ∃ env c w₁, Relation.ReflTransGen (r.Steps file) (.waiting, w) (.running env [c], w₁) ∧
    c.handler.name = "mkfile" ∧ ∃ i j bytes bytes', w₁.disk.node? l = some (.file i bytes) ∧
      ((Verb.make env c.arguments).run w₁).2.disk.node? l = some (.file j bytes') ∧ bytes' ≠ bytes

/-- Whether a file is overwritten can be found by taking the steps before the last command. -/
theorem makeOverwrites_of_steps {r : Run} {file : Path} {w : World} {l : Location} (n : Nat)
    (h : (match Progress.steps r file n (.waiting, w) with
      | (.running env [c], w₁) => c.handler.name == "mkfile" &&
        match w₁.disk.node? l, ((Verb.make env c.arguments).run w₁).2.disk.node? l with
        | some (.file _ bytes), some (.file _ bytes') => bytes' != bytes
        | _, _ => false
      | _ => false) = true) : r.MakeOverwrites file w l := by
  have hsteps := @reaches_steps r file n (.waiting, w)
  generalize Progress.steps r file n (.waiting, w) = x at h hsteps
  split at h
  · obtain ⟨hname, hnode⟩ := Bool.and_eq_true_iff.1 h
    split at hnode
    · next hbefore hafter =>
      exact ⟨_, _, _, hsteps rfl, beq_iff_eq.1 hname, _, _, _, _, hbefore, hafter,
        bne_iff_ne.1 hnode⟩
    · cases hnode
  · cases h

/-- A file of the right side is overwritten when a file of its name is made on both sides. -/
theorem make_overwrites_right :
    let entry : Node → Entry := fun node => ⟨node, 0o755, ⟨0, 0⟩, ⟨0, 0⟩⟩
    let r : Run := { root := ⟨"/run"⟩, registry := Verb.standard, target := .console, workers := 1 }
    let text := "mkfile -t rhs -m1 -M1 x\nmkfile -t both -m2 -M2 x\n"
    let w : World := ⟨⟨⟨[([], entry .directory),
      (["a.t".toList], entry (.file 0 text.toUTF8.data))], 1, []⟩, []⟩, .seeded 0, fun n => ⟨n, 0⟩, 0⟩
    r.MakeOverwrites ⟨"/a.t"⟩ w ["run".toList, "a.t".toList, "rhs".toList, "x".toList] :=
  makeOverwrites_of_steps 2 (by decide +kernel)

end Run

end TwinTrees
