import TwinTrees.Proofs.Site.Home
import TwinTrees.Proofs.Site.Verbs

/-!
# Setting up a test at a site

The environment of a test is built in a run root that is ready and holds nothing of the test yet.
Done in two worlds that look the same there, it fails with the same error in both, or both are then
worlds in which the test can act and which look the same to it (`Stage.furnish`). A failure may
leave what was made so far: the error tells whether the directory of the test is there
(`RunError.keepsRoot`).
-/

namespace TwinTrees

/-- Whether a test that fails with this error leaves its directory. -/
def RunError.keepsRoot : RunError → Bool
  | .environment _ part _ => part ≠ "run root" ∧ part ≠ "test root"
  | .expansion .. | .command .. | .cleanup .. => true
  | _ => false

/-- How two runs of one action end: with answers, or with the same error. -/
inductive Ends {ε α β : Type} (Q : α → β → World → World → Prop) (E : ε → World → World → Prop) :
    Except ε α × World → Except ε β × World → Prop
  | ok {x : α} {y : β} {w₁ w₂ : World} (h : Q x y w₁ w₂) : Ends Q E (.ok x, w₁) (.ok y, w₂)
  | error {e : ε} {w₁ w₂ : World} (h : E e w₁ w₂) : Ends Q E (.error e, w₁) (.error e, w₂)

namespace Ends

variable {ε ε' α α' β β' : Type} {Q : α → β → World → World → Prop}
  {R : α' → β' → World → World → Prop} {E : ε → World → World → Prop}
  {E' : ε' → World → World → Prop} {w₁ w₂ : World}

theorem bind {a : Action ε α} {b : Action ε β} {f : α → Action ε α'} {g : β → Action ε β'}
    (h : Ends Q E (a.run w₁) (b.run w₂))
    (hfg : ∀ x y w₁ w₂, Q x y w₁ w₂ → Ends R E ((f x).run w₁) ((g y).run w₂)) :
    Ends R E ((a >>= f).run w₁) ((b >>= g).run w₂) := by
  rw [Action.run_bind, Action.run_bind]
  generalize a.run w₁ = x, b.run w₂ = y at h ⊢
  cases h with
  | ok h => exact hfg _ _ _ _ h
  | error h => exact .error h

theorem mapError {a : Action ε α} {b : Action ε β} (h : Ends Q E (a.run w₁) (b.run w₂))
    (f : ε → ε') (hf : ∀ e w₁ w₂, E e w₁ w₂ → E' (f e) w₁ w₂) :
    Ends Q E' ((a.mapError f).run w₁) ((b.mapError f).run w₂) := by
  rw [Action.run_mapError, Action.run_mapError]
  generalize a.run w₁ = x, b.run w₂ = y at h ⊢
  cases h with
  | ok h => exact .ok h
  | error h => exact .error (hf _ _ _ h)

end Ends

namespace Environment

/-- What there is to do in the run root to build the environment of a test. -/
def furnish (runRoot : Path) (name : String) (target : LogTarget) (workers : Nat) :
    Action RunError Environment := do
  let root := runRoot.join ⟨name⟩
  let lhs := root.join ⟨Side.lhs.name⟩
  let rhs := root.join ⟨Side.rhs.name⟩
  build.part name "test root" (Action.change fun t d => d.makeDirectory t root Tree.directoryMode)
  build.part name "LHS" (Tree.makeDirectories lhs Tree.directoryMode)
  build.part name "RHS" (Tree.makeDirectories rhs Tree.directoryMode)
  let sink ← match target with
    | .file => build.part name "logfile" (LogSink.openIn root)
    | .console => pure .console
  let start ← Action.now
  return .inside runRoot name workers start sink

theorem build_eq (runRoot : Path) (name : String) (target : LogTarget) (workers : Nat) :
    build runRoot name target workers =
      build.part name "run root" (Tree.makeDirectories runRoot Tree.directoryMode) >>= fun _ =>
        furnish runRoot name target workers := rfl

/-- An environment that could be built is that of its test in the run root. -/
theorem of_build {runRoot : Path} {name : String} {target : LogTarget} {workers : Nat}
    {env : Environment} {w w' : World}
    (built : (build runRoot name target workers).run w = (.ok env, w')) :
    ∃ start sink, env = .inside runRoot name workers start sink := by
  rw [build_eq] at built
  obtain ⟨-, w₁, -, built⟩ := Action.of_run_bind built
  unfold furnish at built
  obtain ⟨-, w₂, -, built⟩ := Action.of_run_bind built
  obtain ⟨-, w₃, -, built⟩ := Action.of_run_bind built
  obtain ⟨-, w₄, -, built⟩ := Action.of_run_bind built
  have hend : ∀ {sink w}, (do
      let start ← Action.now
      return .inside runRoot name workers start sink : Action RunError Environment).run w =
        (.ok env, w') → ∃ start sink, env = .inside runRoot name workers start sink := by
    intro sink w built
    obtain ⟨start, -, -, built⟩ := Action.of_run_bind built
    cases built
    exact ⟨_, sink, rfl⟩
  cases target with
  | console => exact hend built
  | file =>
    obtain ⟨sink, w₅, -, built⟩ := Action.of_run_bind built
    exact hend built

end Environment

/-- What is left of the set-up once the script was read and the run root is there. -/
def Run.enter (r : Run) (name : String) (commands : List (Script.Command Verb)) :
    Action RunError (Environment × List (Script.Command Verb)) := do
  let env ← Environment.furnish r.root name r.target r.workers
  env.write (.started env.root env.name)
  return (env, commands)

theorem Run.setUp_eq (r : Run) (file : Path) :
    r.setUp file = readScript r.registry file >>= fun commands =>
      Environment.build.part (testName file) "run root"
        (Tree.makeDirectories r.root Tree.directoryMode) >>= fun _ =>
      r.enter (testName file) commands := by
  unfold Run.setUp Run.enter
  simp only [Environment.build_eq, bind_assoc]

/-- The set-up of a test whose script was read. -/
theorem Run.setUp_of_read (r : Run) {file : Path} {w : World} {text : String}
    {commands : List (Script.Command Verb)} (read : w.disk.readText file = .ok text)
    (parse : Script.parse r.registry file.text text = .ok commands) :
    (r.setUp file).run w =
      match (Tree.makeDirectories r.root Tree.directoryMode).run w with
      | (.ok (), w') => (r.enter (testName file) commands).run w'
      | (.error fault, w') => (.error (.environment (testName file) "run root" fault), w') := by
  have hscript : (readScript r.registry file).run w = (.ok commands, w) := by
    unfold readScript
    rw [Action.run_bind, Action.run_mapError, Action.run_ask, read]
    simp only [Except.mapError]
    rw [Action.run_ask, parse]
  rw [setUp_eq, Action.run_bind, hscript]
  simp only
  rw [Action.run_bind, Environment.build.part, Action.run_mapError]
  cases (Tree.makeDirectories r.root Tree.directoryMode).run w with
  | mk x w' => cases x <;> rfl

/-- The set-up of a test whose script cannot be read. -/
theorem Run.setUp_of_unread (r : Run) {file : Path} {w : World} {fault : IoError}
    (read : w.disk.readText file = .error fault) :
    (r.setUp file).run w = (.error (.read file fault), w) := by
  unfold Run.setUp readScript
  rw [Action.run_bind, Action.run_bind, Action.run_mapError, Action.run_ask, read]
  rfl

/-- The set-up of a test whose script is no script. -/
theorem Run.setUp_of_unparsed (r : Run) {file : Path} {w : World} {text : String}
    {error : Script.ScriptError} (read : w.disk.readText file = .ok text)
    (parse : Script.parse r.registry file.text text = .error error) :
    (r.setUp file).run w = (.error (.script error), w) := by
  unfold Run.setUp readScript
  rw [Action.run_bind, Action.run_bind, Action.run_mapError, Action.run_ask, read]
  simp only [Except.mapError]
  rw [Action.run_ask, parse]

/-- The set-up ends where the directory of the test cannot be made. -/
theorem Run.enter_of_error (r : Run) {name : String} (commands : List (Script.Command Verb))
    {w : World} {fault : IoError}
    (make : w.disk.makeDirectory (Action.time w) (r.root.join ⟨name⟩) Tree.directoryMode =
      .error fault) :
    (r.enter name commands).run w = (.error (.environment name "test root" fault), Action.tick w) := by
  unfold enter Environment.furnish Environment.build.part
  rw [Action.run_bind, Action.run_bind, Action.run_mapError, Action.run_change, make]
  rfl

namespace Site

variable {s : Site} {times : Bool} {u₁ u₂ : Disk} {made : List Location} {w₁ w₂ : World} {p : Path}
  {names : Location} {n : Name}

/-- The bits of the directories that are made for the test. -/
def newMode (s : Site) (u : Disk) : Mode := u.directoryMode s.home Tree.directoryMode

/-- A disk while the directory of a test is being set up: the run root is there, and of the directory
just these directories are there. The disk was `u` before. -/
structure Begun (s : Site) (u : Disk) (made : List Location) (d : Disk) : Prop where
  found : s.Found d
  isHome : d.IsDir s.home
  stays : s.Stays u d
  modes : ∀ l ∈ made, ∀ e, d.get? l = some e → e.mode = s.newMode u
  made : ∀ l, s.Below l → d.node? l = if l ∈ made then some .directory else none

/-- The sides of a test have nothing in them yet, and both have the same bits. -/
structure Bare (s : Site) (mode : Mode) (d : Disk) : Prop where
  vacant : ∀ l, s.Inside l → (∀ side, l ≠ s.side side) → d.node? l = none
  modes : ∀ side e, d.get? (s.side side) = some e → e.mode = mode

/-- Two worlds while the directory of a test is being set up in both. -/
structure Stage (s : Site) (times : Bool) (u₁ u₂ : Disk) (made : List Location)
    (w₁ w₂ : World) : Prop where
  left : s.Begun u₁ made w₁.disk
  right : s.Begun u₂ made w₂.disk
  below : Disk.Alike times s.Below w₁.disk w₂.disk
  apart : Disk.Alike false s.Apart w₁.disk w₂.disk
  source : w₁.source = w₂.source
  clock : times = true → w₁.clock = w₂.clock

/-- The path of the directory of the test. -/
theorem places_root (s : Site) : s.Places (s.runRoot.join ⟨String.ofList s.name⟩) [] s.name where
  absolute := Path.isAbsolute_join (Path.isAbsolute_name s.isName.noSlash)
  steps := by
    rw [Path.steps_join (Path.isAbsolute_name s.isName.noSlash), Path.steps_name s.isName]
    rfl
  named := nofun

/-- The path of an entry in the directory of the test. -/
theorem places_entry (s : Site) {name : String} (hn : IsName name.toList) :
    s.Places ((s.runRoot.join ⟨String.ofList s.name⟩).join ⟨name⟩) [s.name] name.toList := by
  have hrel := Path.isAbsolute_of_isName hn
  refine ⟨(Path.isAbsolute_join hrel).trans s.places_root.absolute, ?_, fun m hm => ?_⟩
  · rw [Path.steps_join_name hn, s.places_root.steps, List.append_assoc]
    rfl
  · rw [List.mem_singleton.1 hm]
    exact s.isName

/-- Room for a new directory: in the run root for the directory of the test, and in that for others. -/
structure Room (s : Site) (made : List Location) (names : Location) (n : Name) : Prop where
  isName : IsName n
  dir : s.home ++ names = s.home ∨ s.Below (s.home ++ names) ∧ s.home ++ names ∈ made
  below : s.Below (s.home ++ names ++ [n])
  fresh : s.home ++ names ++ [n] ∉ made

theorem room_root (s : Site) : Room s [] [] s.name where
  isName := s.isName
  dir := .inl (List.append_nil _)
  below := by
    rw [List.append_nil]
    exact List.prefix_rfl
  fresh := List.not_mem_nil

theorem room_entry (hn : IsName n) (hroot : s.root ∈ made) (hfresh : s.root ++ [n] ∉ made) :
    Room s made [s.name] n :=
  ⟨hn, .inr ⟨List.prefix_rfl, hroot⟩, List.prefix_append s.root [n], hfresh⟩

namespace Begun

variable {u d : Disk} {now : Time}

theorem isDir (h : s.Begun u made d) (room : Room s made names n) : d.IsDir (s.home ++ names) := by
  obtain hdir | ⟨hbelow, hmade⟩ := room.dir
  · rw [hdir]
    exact h.isHome
  · rw [Disk.IsDir, h.made _ hbelow, if_pos hmade]

theorem free (h : s.Begun u made d) (room : Room s made names n) :
    d.node? (s.home ++ names ++ [n]) = none := by
  rw [h.made _ room.below, if_neg room.fresh]

/-- The bits of a directory that is made for the test, wherever it is. -/
theorem directoryMode (h : s.Begun u made d) (room : Room s made names n) :
    d.directoryMode (s.home ++ names) Tree.directoryMode = s.newMode u := by
  obtain hdir | ⟨-, hmade⟩ := room.dir
  · rw [hdir]
    exact (h.stays.apart.directoryMode s.home_apart _).symm
  · obtain ⟨e, he, -⟩ := Disk.isDir_iff.1 (h.isDir room)
    exact Disk.directoryMode_of_directoryMode he (h.modes _ hmade e he)

theorem addEntry (h : s.Begun u made d) (room : Room s made names n) :
    s.Begun u ((s.home ++ names ++ [n]) :: made)
      (d.addEntry now (s.home ++ names) n .directory
        (d.directoryMode (s.home ++ names) Tree.directoryMode)) := by
  rw [h.directoryMode room]
  have tree : (d.addEntry now (s.home ++ names) n .directory (s.newMode u)).IsTree :=
    h.found.tree.addEntry (h.isDir room) (h.free room) room.isName
  have hstays : s.Stays d (d.addEntry now (s.home ++ names) n .directory (s.newMode u)) :=
    .addEntry tree (room.dir.elim .inr fun h => .inl h.1) room.below
  refine ⟨hstays.found h.found, hstays.apart.isDir s.home_apart h.isHome, h.stays.trans hstays,
    fun l hl e he => ?_,
    fun l hl => ?_⟩
  · rw [Disk.get?_addEntry] at he
    split at he
    · cases he; rfl
    · next hne =>
      have hmade := (List.mem_cons.1 hl).resolve_left hne
      split at he
      · obtain ⟨e', he', rfl⟩ := Option.map_eq_some_iff.1 he
        exact h.modes l hmade e' he'
      · exact h.modes l hmade e he
  · rw [Disk.node?_addEntry, h.made l hl]
    by_cases heq : l = s.home ++ names ++ [n]
    · rw [if_pos heq, if_pos (heq ▸ List.mem_cons_self)]
    · rw [if_neg heq]
      simp only [List.mem_cons, heq, false_or]

/-- Nothing of the directory is there where nothing is in its place. -/
theorem ofFound (h : s.Found d) (isHome : d.IsDir s.home) (free : d.node? s.root = none) :
    s.Begun d [] d where
  found := h
  isHome := isHome
  stays := .refl h.tree
  modes := nofun
  made l hl := by
    rw [if_neg List.not_mem_nil]
    by_cases heq : s.root = l
    · rw [← heq, free]
    · exact h.tree.node?_eq_none_of_prefix hl heq (Disk.not_isDir_of_free free)

theorem ofReady (h : s.Ready d) (free : d.node? s.root = none) : s.Begun d [] d :=
  .ofFound h.found h.isDir free

/-- Where both sides are there and nothing else, the test can act. -/
theorem standing (h : s.Begun u made d) (hsides : ∀ side, s.side side ∈ made) : s.Standing d where
  toFound := h.found
  sides side := by
    rw [Disk.IsDir, h.made _ (inside_side side).below, if_pos (hsides side)]
  enclosed hin hl := by
    rw [h.made _ hin.below] at hl
    split at hl <;> cases hl

end Begun

namespace Stage

theorem tick (h : s.Stage times u₁ u₂ made w₁ w₂) :
    s.Stage times u₁ u₂ made (Action.tick w₁) (Action.tick w₂) :=
  { h with clock := fun ht => by simp only [Action.tick, h.clock ht] }

theorem time (h : s.Stage times u₁ u₂ made w₁ w₂) (ht : times = true) :
    Action.time w₁ = Action.time w₂ := by
  simp only [Action.time, h.clock ht]

variable (h : s.Stage times u₁ u₂ made w₁ w₂) (hp : s.Places p names n) (room : Room s made names n)
include h hp room

/-- The attempt to make a directory. -/
theorem makeDirectory :
    Ends (fun _ _ w₁ w₂ => s.fault? p = none ∧
        s.Stage times u₁ u₂ ((s.home ++ names ++ [n]) :: made) w₁ w₂)
      (fun fault w₁ w₂ => fault ≠ .os Errno.noEntry ∧ w₁.disk.isDirectory p = false ∧
        w₂.disk.isDirectory p = false ∧ s.Stage times u₁ u₂ made w₁ w₂)
      ((Action.change fun t d => d.makeDirectory t p Tree.directoryMode :
        Action IoError Unit).run w₁)
      ((Action.change fun t d => d.makeDirectory t p Tree.directoryMode).run w₂) := by
  have hmode : w₁.disk.directoryMode (s.home ++ names) Tree.directoryMode =
      w₂.disk.directoryMode (s.home ++ names) Tree.directoryMode := by
    obtain hdir | ⟨hbelow, -⟩ := room.dir
    · rw [hdir]
      exact h.apart.directoryMode s.home_apart _
    · exact h.below.directoryMode hbelow _
  have hfree₁ := h.left.free room
  have hfree₂ := h.right.free room
  rw [Action.run_change, Action.run_change,
    hp.makeDirectory h.left.found (h.left.isDir room) room.isName.short hfree₁,
    hp.makeDirectory h.right.found (h.right.isDir room) room.isName.short hfree₂]
  cases hfault : s.fault? p with
  | some fault =>
    refine .error ⟨?_, ?_, ?_, h.tick⟩
    · rintro rfl
      exact fault?_ne_noEntry hp.steps_ne_nil hfault
    · exact hp.isDirectory_of_fault h.left.found (h.left.isDir room) room.isName.short hfree₁ hfault
    · exact hp.isDirectory_of_fault h.right.found (h.right.isDir room) room.isName.short hfree₂
        hfault
  | none =>
    refine .ok ⟨rfl, { h.tick with
      left := h.left.addEntry room
      right := h.right.addEntry room
      below := ?_
      apart := ?_ }⟩
    · rw [← hmode]
      exact h.below.addEntry h.time (s.home ++ names) n rfl _
    · rw [← hmode]
      exact h.apart.addEntry nofun (s.home ++ names) n rfl _

theorem makeDirectories :
    Ends (fun _ _ w₁ w₂ => s.fault? p = none ∧
        s.Stage times u₁ u₂ ((s.home ++ names ++ [n]) :: made) w₁ w₂)
      (fun _ => s.Stage times u₁ u₂ made)
      ((Tree.makeDirectories p Tree.directoryMode).run w₁)
      ((Tree.makeDirectories p Tree.directoryMode).run w₂) := by
  obtain ⟨above, habove⟩ := p.ancestors_eq
  obtain ⟨st, rest, hsteps⟩ := List.exists_cons_of_ne_nil hp.steps_ne_nil
  have hst : st ∈ p.steps := by rw [hsteps]; exact List.mem_cons_self
  have hempty := Path.text_isEmpty_eq_false hst
  have hmake := h.makeDirectory hp room
  unfold Tree.makeDirectories
  rw [habove, Tree.makeDirectoriesAlong, hempty, if_neg Bool.false_ne_true, Action.run_bind,
    Action.run_bind, Action.run_attempt, Action.run_attempt]
  generalize (Action.change _).run w₁ = x, (Action.change _).run w₂ = y at hmake ⊢
  cases hmake with
  | ok hmade => exact .ok hmade
  | error hfault =>
    obtain ⟨hne, hdir₁, hdir₂, hstage⟩ := hfault
    simp only [if_neg hne, Tree.run_settle, hdir₁, hdir₂]
    exact .error hstage

end Stage

/-- Where something is in the place of the directory of the test, the set-up ends. -/
theorem enter_there {r : Run} {w : World} (hroot : s.runRoot = r.root) (h : s.Ready w.disk)
    (there : w.disk.node? s.root ≠ none) (commands : List (Script.Command Verb)) :
    (r.enter (String.ofList s.name) commands).run w =
      (.error (.environment (String.ofList s.name) "test root"
        ((s.fault? (s.runRoot.join ⟨String.ofList s.name⟩)).getD (.os Errno.alreadyExists))),
        Action.tick w) := by
  refine r.enter_of_error _ ?_
  rw [← hroot]
  exact s.places_root.makeDirectory_there h.found (by rwa [s.home_append])

/-! ## The log -/

/-- The logs of a test in two runs: on the console in both, or in a file at the same location. -/
def SameSink (s : Site) (sink₁ sink₂ : LogSink) : Prop :=
  sink₁ = .console ∧ sink₂ = .console ∨
    ∃ path f g, sink₁ = .file path f ∧ sink₂ = .file path g ∧
      f.location = s.log ∧ g.location = s.log

/-- Two worlds after the directory of a test was set up with its log. -/
structure Logged (s : Site) (times : Bool) (u₁ u₂ : Disk) (sink₁ sink₂ : LogSink)
    (w₁ w₂ : World) : Prop where
  twins : s.Twins times w₁.disk w₂.disk
  staysLeft : s.Stays u₁ w₁.disk
  staysRight : s.Stays u₂ w₂.disk
  bareLeft : s.Bare (s.newMode u₁) w₁.disk
  bareRight : s.Bare (s.newMode u₂) w₂.disk
  source : w₁.source = w₂.source
  clock : times = true → w₁.clock = w₂.clock
  sink : s.SameSink sink₁ sink₂
  left : ∀ path f, sink₁ = .file path f → w₁.disk.Holds f
  right : ∀ path f, sink₂ = .file path f → w₂.disk.Holds f

/-- The directories of a test. -/
def directories (s : Site) : List Location := [s.side .rhs, s.side .lhs, s.root]

theorem side_mem_directories (side : Side) : s.side side ∈ s.directories := by
  cases side <;> simp [directories]

theorem Watched.below {l : Location} (h : s.Watched times l) : s.Below l := by
  obtain h | ⟨-, rfl⟩ := h
  · exact h.below
  · exact List.prefix_append _ _

theorem log_not_mem_directories : s.log ∉ s.directories := by
  simp only [directories, List.mem_cons, List.not_mem_nil, or_false, not_or]
  refine ⟨fun h => (inside_side .rhs).ne_log h.symm, fun h => (inside_side .lhs).ne_log h.symm, ?_⟩
  simp [log]

/-- Sides stay bare while nothing inside changes. -/
theorem Bare.of_off {mode : Mode} {d d' : Disk} (h : s.Bare mode d)
    (off : Disk.SameOff (fun l => ¬ s.Inside l) d d') : s.Bare mode d' where
  vacant l hl hne := (off.node? (not_not_intro hl)).trans (h.vacant l hl hne)
  modes side e he := h.modes side e ((off.get? (not_not_intro (inside_side side))).symm.trans he)

namespace Begun

variable {u d : Disk} {now : Time}

/-- The sides are empty at first. -/
theorem bare (h : s.Begun u s.directories d) : s.Bare (s.newMode u) d where
  vacant l hl hne := by
    rw [h.made l hl.below, if_neg]
    intro hmem
    simp only [directories, List.mem_cons, List.not_mem_nil, or_false] at hmem
    obtain rfl | rfl | rfl := hmem
    · exact hne .rhs rfl
    · exact hne .lhs rfl
    · exact hl.ne_root rfl
  modes side e he := h.modes _ (side_mem_directories side) e he

/-- The test can act on the disk after its log was made. -/
theorem standing_addFile (h : s.Begun u s.directories d) (now : Time) (mode : Mode) :
    s.Standing (d.addFile now s.root LogSink.fileName.toList mode) ∧
      s.Stays u (d.addFile now s.root LogSink.fileName.toList mode) := by
  have hstanding := h.standing side_mem_directories
  have hfree : d.node? (s.root ++ [LogSink.fileName.toList]) = none := by
    rw [h.made _ (List.prefix_append _ _)]
    exact if_neg log_not_mem_directories
  have tree : (d.addFile now s.root LogSink.fileName.toList mode).IsTree :=
    h.found.tree.addFile hstanding.isDir_root hfree ⟨by decide, by decide, by decide⟩
  have hoff : Disk.SameOff s.Below d (d.addFile now s.root LogSink.fileName.toList mode) :=
    .addFile List.prefix_rfl (List.prefix_append _ _)
  have hnode : ∀ {l}, s.Inside l →
      (d.addFile now s.root LogSink.fileName.toList mode).node? l = d.node? l := by
    intro l hl
    exact Disk.node?_addEntry.trans (if_neg hl.ne_log)
  refine ⟨hstanding.preserve hoff tree (fun side => ?_) fun l target hl htarget => ?_,
    h.stays.trans (.ofBelow tree hoff)⟩
  · exact (hnode (inside_side side)).trans (hstanding.sides side)
  · exact .inl ((hnode hl).symm.trans htarget)

end Begun

namespace Stage

theorem console (h : s.Stage times u₁ u₂ s.directories w₁ w₂) :
    s.Logged times u₁ u₂ .console .console w₁ w₂ where
  twins := ⟨h.left.standing side_mem_directories, h.right.standing side_mem_directories,
    h.below.mono fun _ => Watched.below⟩
  staysLeft := h.left.stays
  staysRight := h.right.stays
  bareLeft := h.left.bare
  bareRight := h.right.bare
  source := h.source
  clock := h.clock
  sink := .inl ⟨rfl, rfl⟩
  left := nofun
  right := nofun

theorem openLog (h : s.Stage times u₁ u₂ s.directories w₁ w₂) :
    Ends (s.Logged times u₁ u₂) (fun _ => s.Stage times u₁ u₂ s.directories)
      ((LogSink.openIn (s.runRoot.join ⟨String.ofList s.name⟩)).run w₁)
      ((LogSink.openIn (s.runRoot.join ⟨String.ofList s.name⟩)).run w₂) := by
  have hname : IsName LogSink.fileName.toList := ⟨by decide, by decide, by decide⟩
  have hp := s.places_entry hname
  have hslash := Path.endsInSlash_join (p := s.runRoot.join ⟨String.ofList s.name⟩) hname
  have hopen : ∀ {u d : Disk} {now : Time}, s.Begun u s.directories d →
      d.openOrCreate now _ _ _ = _ :=
    fun {u d now} hb => hp.openOrCreate hb.found
      (hb.standing side_mem_directories).isDir_root hname.short
      ((hb.made s.log (List.prefix_append _ _)).trans (if_neg log_not_mem_directories)) hslash 0o600
      false
  unfold LogSink.openIn
  simp only
  rw [Action.run_bind, Action.run_bind, Action.run_request, Action.run_request, hopen h.left,
    hopen h.right]
  cases s.fault? ((s.runRoot.join ⟨String.ofList s.name⟩).join ⟨LogSink.fileName⟩) with
  | some fault => exact .error h.tick
  | none =>
    obtain ⟨hleft, hstays₁⟩ := h.left.standing_addFile (Action.time w₁) 0o600
    obtain ⟨hright, hstays₂⟩ := h.right.standing_addFile (Action.time w₂) 0o600
    refine .ok {
      twins := ⟨hleft, hright, Disk.Alike.mono (h.below.addFile h.time _ _ _) fun _ => Watched.below⟩
      staysLeft := hstays₁
      staysRight := hstays₂
      bareLeft := h.left.bare.of_off (.addFile (fun h => h.ne_root rfl) fun h => h.ne_log rfl)
      bareRight := h.right.bare.of_off (.addFile (fun h => h.ne_root rfl) fun h => h.ne_log rfl)
      source := h.source
      clock := h.tick.clock
      sink := .inr ⟨_, _, _, rfl, rfl, rfl, rfl⟩
      left := fun _ _ hf => ?_
      right := fun _ _ hf => ?_ }
    · cases hf
      exact w₁.disk.holds_addFile _ _ _ _
    · cases hf
      exact w₂.disk.holds_addFile _ _ _ _

end Stage

/-! ## The environment -/

/-- The environment that is built for the test. -/
def environment (s : Site) (workers : Nat) (start : Time) (sink : LogSink) : Environment :=
  .inside s.runRoot (String.ofList s.name) workers start sink

theorem leads_side (s : Site) (side : Side) (workers : Nat) (start : Time) (sink : LogSink) :
    s.Leads ((s.environment workers start sink).side side) := by
  have hp := s.places_entry side.isName
  rw [environment, Environment.side_inside]
  exact ⟨hp.absolute, side, [], nofun, hp.steps⟩

theorem sameEnv {sink₁ sink₂ : LogSink} (h : s.SameSink sink₁ sink₂) (workers : Nat)
    {start₁ start₂ : Time} (hstart : times = true → start₁ = start₂) :
    s.SameEnv times (s.environment workers start₁ sink₁) (s.environment workers start₂ sink₂) where
  name := rfl
  root := rfl
  lhs := rfl
  rhs := rfl
  workers := rfl
  start := hstart
  leads side := s.leads_side side workers start₁ sink₁
  sink := h

/-- Two worlds in which the environment of a test was built, and the environments. -/
structure Furnished (s : Site) (times : Bool) (workers : Nat) (u₁ u₂ : Disk)
    (env₁ env₂ : Environment) (w₁ w₂ : World) : Prop where
  world : s.SameWorld times env₁ env₂ w₁ w₂
  staysLeft : s.Stays u₁ w₁.disk
  staysRight : s.Stays u₂ w₂.disk
  bareLeft : s.Bare (s.newMode u₁) w₁.disk
  bareRight : s.Bare (s.newMode u₂) w₂.disk
  env : ∃ start sink, env₁ = s.environment workers start sink
  valid : s.fault? env₁.root = none
  validSides : ∀ side, s.fault? (env₁.side side) = none

/-- Two worlds in which the set-up has failed, and has left the directory of the test as the error
says. -/
def Abandoned (s : Site) (times : Bool) (u₁ u₂ : Disk) (e : RunError) (w₁ w₂ : World) : Prop :=
  ∃ made, s.Stage times u₁ u₂ made w₁ w₂ ∧ (s.root ∈ made ↔ e.keepsRoot = true)

theorem Logged.furnished {sink₁ sink₂ : LogSink} (h : s.Logged times u₁ u₂ sink₁ sink₂ w₁ w₂)
    (workers : Nat) (valid : s.fault? (s.runRoot.join ⟨String.ofList s.name⟩) = none)
    (validSides : ∀ side : Side,
      s.fault? ((s.runRoot.join ⟨String.ofList s.name⟩).join ⟨side.name⟩) = none) :
    s.Furnished times workers u₁ u₂ (s.environment workers (Action.time w₁) sink₁)
      (s.environment workers (Action.time w₂) sink₂) (Action.tick w₁) (Action.tick w₂) where
  world := {
    env := sameEnv h.sink workers fun ht => by simp only [Action.time, h.clock ht]
    twins := h.twins
    source := h.source
    clock := fun ht => by simp only [Action.tick, h.clock ht]
    left := h.left
    right := h.right }
  staysLeft := h.staysLeft
  staysRight := h.staysRight
  bareLeft := h.bareLeft
  bareRight := h.bareRight
  env := ⟨_, _, rfl⟩
  valid := valid
  validSides side := by cases side; exacts [validSides .lhs, validSides .rhs]

theorem Stage.furnish (h : s.Stage times u₁ u₂ [] w₁ w₂) (target : LogTarget) (workers : Nat) :
    Ends (s.Furnished times workers u₁ u₂) (s.Abandoned times u₁ u₂)
      ((Environment.furnish s.runRoot (String.ofList s.name) target workers).run w₁)
      ((Environment.furnish s.runRoot (String.ofList s.name) target workers).run w₂) := by
  have hlhs : s.side .lhs ∉ [s.root] := fun hmem =>
    (inside_side .lhs).ne_root (List.mem_singleton.1 hmem)
  have hrhs : s.side .rhs ∉ [s.side .lhs, s.root] := by
    intro hmem
    obtain heq | hmem := List.mem_cons.1 hmem
    · exact absurd (List.append_inj_right heq rfl) (by decide)
    · exact (inside_side .rhs).ne_root (List.mem_singleton.1 hmem)
  unfold Environment.furnish Environment.build.part
  simp only
  refine (h.makeDirectory s.places_root s.room_root).mapError _ ?_ |>.bind ?_
  · rintro e w₁ w₂ ⟨-, -, -, hstage⟩
    exact ⟨[], hstage, by simp [RunError.keepsRoot]⟩
  rintro _ _ w₁ w₂ ⟨hvalid, hstage⟩
  rw [s.home_append] at hstage
  refine (hstage.makeDirectories (s.places_entry Side.lhs.isName)
    (room_entry Side.lhs.isName List.mem_cons_self hlhs)).mapError _ ?_ |>.bind ?_
  · intro e w₁ w₂ hstage
    exact ⟨[s.root], hstage, by simp [RunError.keepsRoot]⟩
  rintro _ _ w₁ w₂ ⟨hvalidLhs, hstage⟩
  refine (hstage.makeDirectories (s.places_entry Side.rhs.isName)
    (room_entry Side.rhs.isName (List.mem_cons_of_mem _ List.mem_cons_self) hrhs)).mapError _ ?_
      |>.bind ?_
  · intro e w₁ w₂ hstage
    exact ⟨_, hstage, by simp [RunError.keepsRoot]⟩
  rintro _ _ w₁ w₂ ⟨hvalidRhs, hstage⟩
  have hend : ∀ {sink₁ sink₂ w₁ w₂}, s.Logged times u₁ u₂ sink₁ sink₂ w₁ w₂ →
      Ends (s.Furnished times workers u₁ u₂) (s.Abandoned times u₁ u₂)
        ((do
          let start ← Action.now
          return .inside s.runRoot (String.ofList s.name) workers start sink₁ :
            Action RunError Environment).run w₁)
        ((do
          let start ← Action.now
          return .inside s.runRoot (String.ofList s.name) workers start sink₂ :
            Action RunError Environment).run w₂) :=
    fun hlogged => .ok (hlogged.furnished workers hvalid fun side => by
      cases side; exacts [hvalidLhs, hvalidRhs])
  cases target with
  | console => exact hend hstage.console
  | file =>
    refine (hstage.openLog.mapError _ ?_).bind fun _ _ _ _ hlogged => hend hlogged
    intro e w₁ w₂ hstage
    exact ⟨_, hstage, by simp [RunError.keepsRoot, directories]⟩

end Site

end TwinTrees
