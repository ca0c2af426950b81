import TwinTrees.Proofs.Disk.Removal
import TwinTrees.Proofs.Site.SetUp

/-!
# A test at a site, from its set-up to its end

Two runs of one test go through the same progress, if they look the same to the test at first
(`SameProgress.step`, `sameProgress_of_setUp`). On both disks only what belongs to the test changes.
At the end both have the same outcome, and both have left the directory of the test or both have
removed it.
-/

namespace TwinTrees

/-- The failure of a command leaves the directory of the test. -/
theorem Environment.keepsRoot_of_perform {env : Environment} {c : Script.Command Verb} {w w' : World}
    {e : RunError} (h : (env.perform c).run w = (.error e, w')) : e.keepsRoot = true := by
  have hexpand : ∀ {arguments : List String} {e : RunError},
      env.expandArguments c.handler.name arguments = .error e → e.keepsRoot = true := by
    intro arguments
    induction arguments with
    | nil => nofun
    | cons argument arguments ih =>
      intro e h
      unfold Environment.expandArguments at h ih
      rw [List.mapM_cons] at h
      cases hargument : env.expandArgument c.handler.name argument with
      | error e' =>
        rw [hargument] at h
        cases h
        unfold Environment.expandArgument at hargument
        simp only at hargument
        split at hargument
        · cases hargument; rfl
        · cases hargument
      | ok expanded =>
        rw [hargument] at h
        cases hrest : arguments.mapM (env.expandArgument c.handler.name) with
        | error e' =>
          rw [hrest] at h
          cases h
          exact ih hrest
        | ok rest => rw [hrest] at h; cases h
  unfold Environment.perform at h
  rw [Action.run_bind, Action.run_ask] at h
  cases hargs : env.expandArguments c.handler.name c.arguments with
  | error e' => rw [hargs] at h; cases h; exact hexpand hargs
  | ok arguments =>
    rw [hargs] at h
    simp only at h
    rw [Action.run_bind, Environment.write, LogSink.run_write] at h
    simp only at h
    rw [Action.run_mapError] at h
    obtain ⟨h, -⟩ := Prod.mk.inj h
    generalize ((c.handler.body env arguments).run _).1 = x at h
    cases x with
    | error e' => cases h; rfl
    | ok u => cases h

theorem Environment.run_write {ε : Type} (env : Environment) (e : Event) (w : World) :
    (env.write e : Action ε Unit).run w = (.ok (), ((env.write e : Action ε Unit).run w).2) := by
  unfold Environment.write
  rw [LogSink.run_write]

theorem Environment.run_cleanUp {env : Environment} {w w' : World}
    (h : (Tree.remove env.root).run ((env.write (.passed env.root) : Action RunError Unit).run w).2 =
      (.ok (), w')) : env.cleanUp.run w = (.ok (), w') := by
  unfold Environment.cleanUp
  rw [Action.run_bind, Environment.run_write]
  simp only
  rw [Action.run_mapError, h]
  rfl

namespace Progress

variable {r : Run} {file : Path} {env : Environment} {w : World}

theorem step_waiting :
    step r file .waiting w = match (r.setUp file).run w with
      | (.ok (env, commands), w') => (.running env commands, w')
      | (.error e, w') => (.finished (.error e), w') := by
  simp only [step, bind, StateT.bind, pure]
  cases (r.setUp file).run w with
  | mk x w' => cases x <;> rfl

theorem step_nil :
    step r file (.running env []) w =
      (.finished (env.cleanUp.run w).1, (env.cleanUp.run w).2) := rfl

theorem step_cons {c : Script.Command Verb} {rest : List (Script.Command Verb)} :
    step r file (.running env (c :: rest)) w = match (env.perform c).run w with
      | (.ok (), w') => (.running env rest, w')
      | (.error e, w') => (.finished (.error e),
          ((env.write (.failed env.name e.message) : Action RunError Unit).run w').2) := by
  simp only [step, bind, StateT.bind, pure]
  cases (env.perform c).run w with
  | mk x w' => cases x <;> rfl

end Progress

namespace Site

variable {s : Site} {times : Bool} {d : Disk} {w w₁ w₂ : World} {p : Path} {now : Time}

/-! ## Removing the directory of the test -/

/-- The directory of the test with nothing in it. -/
theorem Ready.clear (h : s.Ready d) (now : Time) :
    s.Ready (d.clear now s.root) ∧ s.Stays d (d.clear now s.root) := by
  have tree : (d.clear now s.root).IsTree := h.tree.clear s.root
  have stays : s.Stays d (d.clear now s.root) := .ofBelow tree (.clear fun _ hm => hm)
  exact ⟨h.of_alike tree stays.apart, stays⟩

/-- The directory of a test is removed with all that is in it. -/
theorem Places.remove (hp : s.Places p [] s.name) (h : s.Ready w.disk) (hroot : w.disk.IsDir s.root)
    (valid : s.fault? p = none) :
    ∃ w', (Tree.remove p).run w = (.ok (), w') ∧ s.Stays w.disk w'.disk ∧
      w'.disk.node? s.root = none := by
  obtain ⟨e, he, hdir⟩ := Disk.isDir_iff.1 hroot
  have hlook := hp.find h.found s.isName.short (by rwa [s.home_append]) hdir valid false
  rw [s.home_append] at hlook
  obtain ⟨hready, hclear⟩ := h.clear (Action.time w)
  have hempty := (Disk.isDir_clear (Action.time w) hroot).2
  have hhome : (w.disk.clear (Action.time w) s.root).IsDir (s.home ++ []) := by
    rw [List.append_nil]; exact hready.isDir
  have htarget := hp.target hready.found hhome s.isName.short (.inl (Eq.refl LastLink.keep))
  rw [valid, List.append_nil] at htarget
  have htree : ((w.disk.clear (Action.time w) s.root).removeEntry (Action.time (Action.tick w))
      s.home s.name).IsTree := hready.tree.removeEntry (Disk.names_eq_nil_iff.1 hempty)
  exact ⟨_, Tree.remove_directory hroot s.isName.short hlook htarget,
    hclear.trans (.removeRoot htree), Disk.node?_removeEntry.trans (if_pos rfl)⟩

/-! ## Progress -/

/-- Two disks after a test: if it failed in such a way, its directory is there with the same sides
and the same log; if not, it is gone. -/
inductive Ended (s : Site) (times : Bool) (outcome : Except RunError Unit) (d₁ d₂ : Disk) : Prop
  | kept {e : RunError} (error : outcome = .error e) (keeps : e.keepsRoot = true)
      (left : d₁.IsDir s.root) (right : d₂.IsDir s.root)
      (alike : Disk.Alike times (s.Watched times) d₁ d₂) : Ended s times outcome d₁ d₂
  | gone (keeps : ∀ e, outcome = .error e → e.keepsRoot = false) (left : d₁.node? s.root = none)
      (right : d₂.node? s.root = none) : Ended s times outcome d₁ d₂

/-- Two runs of a test that have come equally far and look the same to it. -/
inductive SameProgress (s : Site) (times : Bool) (workers : Nat) :
    Progress × World → Progress × World → Prop
  | running {env₁ env₂ : Environment} {commands : List (Script.Command Verb)} {w₁ w₂ : World}
      (world : s.SameWorld times env₁ env₂ w₁ w₂)
      (env : ∃ start sink, env₁ = s.environment workers start sink)
      (valid : s.fault? env₁.root = none)
      (ready : s.Ready w₁.disk ∧ s.Ready w₂.disk)
      (handlers : ∀ c ∈ commands, c.handler ∈ Verb.standard.handlers)
      (names : ∀ c ∈ commands, ∀ arguments,
        env₁.expandArguments c.handler.name c.arguments = .ok arguments →
        ∀ name ∈ Verb.namesIn c.handler.name arguments, IsLocal name) :
      SameProgress s times workers (.running env₁ commands, w₁) (.running env₂ commands, w₂)
  | finished {outcome : Except RunError Unit} {w₁ w₂ : World}
      (ended : s.Ended times outcome w₁.disk w₂.disk) :
      SameProgress s times workers (.finished outcome, w₁) (.finished outcome, w₂)

/-- What an action changes that agrees with another stays below the directory of the test. -/
theorem Outcome.stays {ε α β : Type} {env₁ env₂ : Environment} {x : Except ε α × World}
    {y : Except ε β × World} {Q : α → β → Disk → Disk → Prop}
    (o : s.Outcome times env₁ env₂ w₁ w₂ x y Q) :
    s.Stays w₁.disk x.2.disk ∧ s.Stays w₂.disk y.2.disk :=
  ⟨.ofBelow o.world.twins.left.tree (o.left.mono fun _ => Owns.below),
    .ofBelow o.world.twins.right.tree (o.right.mono fun _ => Owns.below)⟩

/-- A test that has passed removes its directory. -/
theorem cleanUp {env₁ env₂ : Environment} {workers : Nat}
    (world : s.SameWorld times env₁ env₂ w₁ w₂)
    (env : ∃ start sink, env₁ = s.environment workers start sink)
    (valid : s.fault? env₁.root = none) (ready : s.Ready w₁.disk ∧ s.Ready w₂.disk) :
    ∃ w₁' w₂', env₁.cleanUp.run w₁ = (.ok (), w₁') ∧ env₂.cleanUp.run w₂ = (.ok (), w₂') ∧
      s.Stays w₁.disk w₁'.disk ∧ s.Stays w₂.disk w₂'.disk ∧ w₁'.disk.node? s.root = none ∧
      w₂'.disk.node? s.root = none := by
  have hplaces : s.Places env₁.root [] s.name := by
    obtain ⟨start, sink, rfl⟩ := env
    exact s.places_root
  have o := Agrees.write (ε := RunError) (P := Any) (.passed env₁.root) w₁ w₂ world trivial
  obtain ⟨hstays₁, hstays₂⟩ := o.stays
  have hready₁ := ready.1.of_alike hstays₁.tree hstays₁.apart
  have hready₂ := ready.2.of_alike hstays₂.tree hstays₂.apart
  obtain ⟨w₁', hremove₁, hstays₁', hgone₁⟩ :=
    hplaces.remove hready₁ o.world.twins.left.isDir_root valid
  obtain ⟨w₂', hremove₂, hstays₂', hgone₂⟩ :=
    hplaces.remove hready₂ o.world.twins.right.isDir_root valid
  refine ⟨w₁', w₂', ?_, ?_, hstays₁.trans hstays₁', hstays₂.trans hstays₂', hgone₁, hgone₂⟩
  · exact Environment.run_cleanUp hremove₁
  · exact Environment.run_cleanUp (by rw [← world.env.root]; exact hremove₂)

theorem SameProgress.step {workers : Nat} {x y : Progress × World}
    (h : s.SameProgress times workers x y) (r : Run) (file : Path) :
    s.SameProgress times workers (x.1.step r file x.2) (y.1.step r file y.2) ∧
      (x.2.disk.IsTree → s.Stays x.2.disk (x.1.step r file x.2).2.disk) ∧
      (y.2.disk.IsTree → s.Stays y.2.disk (y.1.step r file y.2).2.disk) := by
  cases h with
  | finished ended => exact ⟨.finished ended, .refl, .refl⟩
  | @running env₁ env₂ commands w₁ w₂ world env valid ready handlers names =>
    cases commands with
    | nil =>
      obtain ⟨w₁', w₂', h₁, h₂, hstays₁, hstays₂, hgone₁, hgone₂⟩ := cleanUp world env valid ready
      rw [Progress.step_nil, Progress.step_nil, h₁, h₂]
      exact ⟨.finished (.gone nofun hgone₁ hgone₂), fun _ => hstays₁, fun _ => hstays₂⟩
    | cons c rest =>
      have o := Agrees.perform (P := Any) (handlers c List.mem_cons_self)
        (names c List.mem_cons_self) w₁ w₂ world trivial
      obtain ⟨hstays₁, hstays₂⟩ := o.stays
      have hkeeps : ∀ e w', (env₁.perform c).run w₁ = (.error e, w') → e.keepsRoot = true :=
        fun e w' => Environment.keepsRoot_of_perform
      rw [Progress.step_cons, Progress.step_cons]
      generalize (env₁.perform c).run w₁ = x, (env₂.perform c).run w₂ = y at o hstays₁ hstays₂ hkeeps
      obtain ⟨x, w₁'⟩ := x
      obtain ⟨y, w₂'⟩ := y
      obtain ⟨world', -, -, result⟩ := o
      cases result with
      | ok h =>
        refine ⟨.running world' env valid ⟨ready.1.of_alike hstays₁.tree hstays₁.apart,
          ready.2.of_alike hstays₂.tree hstays₂.apart⟩
          (fun c' hc' => handlers c' (List.mem_cons_of_mem c hc'))
          fun c' hc' => names c' (List.mem_cons_of_mem c hc'), fun _ => hstays₁, fun _ => hstays₂⟩
      | error e =>
        have o' := Agrees.write (ε := RunError) (P := Any) (.failed env₁.name e.message) w₁' w₂'
          world' trivial
        obtain ⟨hstays₁', hstays₂'⟩ := o'.stays
        simp only [← world.env.name]
        exact ⟨.finished (.kept rfl (hkeeps e w₁' rfl) o'.world.twins.left.isDir_root
          o'.world.twins.right.isDir_root o'.world.twins.alike), fun _ => hstays₁.trans hstays₁',
          fun _ => hstays₂.trans hstays₂'⟩

/-! ## The set-up -/

/-- The site is that of the test in a file. -/
structure Hosts (s : Site) (r : Run) (file : Path) : Prop where
  root : s.runRoot = r.root
  name : String.ofList s.name = testName file

theorem SameEnv.logs {env₁ env₂ : Environment} (h : s.SameEnv times env₁ env₂) :
    (∀ path f, env₁.sink = .file path f → f.location = s.log) ∧
      ∀ path f, env₂.sink = .file path f → f.location = s.log := by
  obtain ⟨h₁, h₂⟩ | ⟨_, _, _, h₁, h₂, hf, hg⟩ := h.sink
  · rw [h₁, h₂]
    exact ⟨nofun, nofun⟩
  · rw [h₁, h₂]
    exact ⟨fun _ _ hs => (LogSink.file.inj hs).2 ▸ hf, fun _ _ hs => (LogSink.file.inj hs).2 ▸ hg⟩

/-- An event in the log of a test changes nothing but the log. -/
theorem off_log_of_write {ε : Type} {env : Environment}
    (sink : ∀ path f, env.sink = .file path f → f.location = s.log) (e : Event) (w : World) :
    Disk.SameOff (fun l => l = s.log) w.disk ((env.write e : Action ε Unit).run w).2.disk := by
  unfold Environment.write
  rw [LogSink.run_write]
  cases hsink : env.sink with
  | console => exact .refl _
  | file path f =>
    have hlog : f.location = s.log := sink path f hsink
    exact Disk.SameOff.update (Q := fun l => l = s.log) hlog _

/-- An event in the log of a test is not inside its sides. -/
theorem off_of_write {ε : Type} {env : Environment}
    (sink : ∀ path f, env.sink = .file path f → f.location = s.log) (e : Event) (w : World) :
    Disk.SameOff (fun l => ¬ s.Inside l) w.disk ((env.write e : Action ε Unit).run w).2.disk :=
  (off_log_of_write sink e w).mono fun _ hl hin => hin.ne_log hl

/-- Right after its set-up, a test finds nothing in its sides. -/
def Opens (s : Site) (mode : Mode) (x : Progress × World) : Prop :=
  ∀ env commands, x.1 = .running env commands →
    s.Bare mode x.2.disk ∧ ∀ side, s.fault? (env.side side) = none

/-- What the set-up of a test comes to once its script was read and the run root is there. -/
theorem Stage.setUp {r : Run} {file : Path} {text : String} {commands : List (Script.Command Verb)}
    {w₁' w₂' : World} (stage : s.Stage times w₁'.disk w₂'.disk [] w₁' w₂') (hosts : s.Hosts r file)
    (read₁ : w₁.disk.readText file = .ok text) (read₂ : w₂.disk.readText file = .ok text)
    (parse : Script.parse r.registry file.text text = .ok commands)
    (made₁ : (Tree.makeDirectories r.root Tree.directoryMode).run w₁ = (.ok (), w₁'))
    (made₂ : (Tree.makeDirectories r.root Tree.directoryMode).run w₂ = (.ok (), w₂')) :
    Ends (fun x y w₁ w₂ => x.2 = commands ∧ y.2 = commands ∧
        s.Furnished times r.workers w₁'.disk w₂'.disk x.1 y.1 w₁ w₂)
      (s.Abandoned times w₁'.disk w₂'.disk) ((r.setUp file).run w₁) ((r.setUp file).run w₂) := by
  rw [r.setUp_of_read read₁ parse, r.setUp_of_read read₂ parse, made₁, made₂]
  simp only
  unfold Run.enter
  rw [← hosts.root, ← hosts.name]
  refine (stage.furnish r.target r.workers).bind fun env₁ env₂ v₁ v₂ h => ?_
  have o := Agrees.write (ε := RunError) (P := Any) (.started env₁.root env₁.name) v₁ v₂ h.world
    trivial
  obtain ⟨hstays₁, hstays₂⟩ := o.stays
  have hstart : Ends (fun _ _ => s.Furnished times r.workers w₁'.disk w₂'.disk env₁ env₂)
      (s.Abandoned times w₁'.disk w₂'.disk)
      ((env₁.write (.started env₁.root env₁.name)).run v₁)
      ((env₂.write (.started env₂.root env₂.name)).run v₂) := by
    obtain ⟨hlog₁, hlog₂⟩ := h.world.env.logs
    rw [← h.world.env.root, ← h.world.env.name]
    rw [Environment.run_write env₁, Environment.run_write env₂]
    exact .ok { h with
      world := o.world
      staysLeft := h.staysLeft.trans hstays₁
      staysRight := h.staysRight.trans hstays₂
      bareLeft := h.bareLeft.of_off (off_of_write hlog₁ _ _)
      bareRight := h.bareRight.of_off (off_of_write hlog₂ _ _) }
  exact hstart.bind fun _ _ _ _ h => .ok ⟨rfl, rfl, h⟩

/-- The first step of a test in two worlds that look the same to it. -/
theorem sameProgress_of_setUp (times : Bool) {r : Run} {file : Path} {text : String}
    {commands : List (Script.Command Verb)} (hosts : s.Hosts r file)
    (hregistry : r.registry = Verb.standard) (read₁ : w₁.disk.readText file = .ok text)
    (read₂ : w₂.disk.readText file = .ok text)
    (parse : Script.parse r.registry file.text text = .ok commands)
    (names : r.LocalCommands file commands) {w₁' w₂' : World}
    (made₁ : (Tree.makeDirectories r.root Tree.directoryMode).run w₁ = (.ok (), w₁'))
    (made₂ : (Tree.makeDirectories r.root Tree.directoryMode).run w₂ = (.ok (), w₂'))
    (ready : s.Ready w₁'.disk ∧ s.Ready w₂'.disk)
    (stage : s.Stage times w₁'.disk w₂'.disk [] w₁' w₂') :
    s.SameProgress times r.workers (Progress.step r file .waiting w₁)
        (Progress.step r file .waiting w₂) ∧
      s.Stays w₁'.disk (Progress.step r file .waiting w₁).2.disk ∧
      s.Stays w₂'.disk (Progress.step r file .waiting w₂).2.disk ∧
      s.Opens (s.newMode w₁'.disk) (Progress.step r file .waiting w₁) := by
  have henter := stage.setUp hosts read₁ read₂ parse made₁ made₂
  rw [Progress.step_waiting, Progress.step_waiting]
  generalize (r.setUp file).run w₁ = x, (r.setUp file).run w₂ = y at henter ⊢
  cases henter with
  | @ok x y v₁ v₂ h =>
    obtain ⟨env₁, commands₁⟩ := x
    obtain ⟨env₂, commands₂⟩ := y
    obtain rfl : commands₁ = commands := h.1
    obtain rfl : commands₂ = commands₁ := h.2.1
    have h : s.Furnished times r.workers w₁'.disk w₂'.disk env₁ env₂ v₁ v₂ := h.2.2
    refine ⟨.running h.world h.env h.valid ⟨ready.1.of_alike h.staysLeft.tree h.staysLeft.apart,
      ready.2.of_alike h.staysRight.tree h.staysRight.apart⟩ ?_ ?_,
      h.staysLeft, h.staysRight, fun _ _ heq => by cases heq; exact ⟨h.bareLeft, h.validSides⟩⟩
    · rw [← hregistry]
      exact Script.handler_mem_of_parse parse
    · intro c hc arguments hexpand
      obtain ⟨start, sink, henv⟩ := h.env
      refine names c hc start sink arguments ?_
      rw [← hexpand, henv, environment, hosts.root, hosts.name]
      rfl
  | @error e v₁ v₂ h =>
    obtain ⟨made, h, hkeeps⟩ := h
    refine ⟨.finished ?_, h.left.stays, h.right.stays, fun _ _ heq => by cases heq⟩
    by_cases hroot : s.root ∈ made
    · exact .kept rfl (hkeeps.1 hroot)
        ((h.left.made _ List.prefix_rfl).trans (if_pos hroot))
        ((h.right.made _ List.prefix_rfl).trans (if_pos hroot))
        (h.below.mono fun _ => Watched.below)
    · refine .gone (fun e' he' => ?_) ((h.left.made _ List.prefix_rfl).trans (if_neg hroot))
        ((h.right.made _ List.prefix_rfl).trans (if_neg hroot))
      cases he'
      exact Bool.eq_false_iff.2 fun hk => hroot (hkeeps.2 hk)

end Site

end TwinTrees
