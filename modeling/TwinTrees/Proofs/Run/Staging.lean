import TwinTrees.Proofs.Run.Confinement
import TwinTrees.Proofs.Site.Beside
import TwinTrees.Proofs.Site.Mirrored

/-!
# Scripts that stage a tree and copy it

If all commands of a test succeed that first stages the left side by local names, then copies it and
then gives both sides one time, the two sides match (`Run.staged_sides_match`): right after the
set-up the disk is staged, each command keeps it so, and the last two make the sides match.
-/

namespace TwinTrees

namespace Site

variable {s : Site} {times : Bool} {workers : Nat} {u₁ u₂ : Disk} {env₁ env₂ : Environment}
  {w₁ w₂ : World}

/-- Right after its set-up, nothing was staged yet. -/
theorem Furnished.staged (h : s.Furnished times workers u₁ u₂ env₁ env₂ w₁ w₂)
    (absolute : s.runRoot.isAbsolute = true) : s.Staged (s.newMode u₁) w₁.disk := by
  have standing := h.world.twins.left
  have hside : ∀ {l node}, s.Inside l → w₁.disk.node? l = some node → ∃ side, l = s.side side := by
    intro l node hl hnode
    by_contra hnone
    rw [h.bareLeft.vacant l hl fun side heq => hnone ⟨side, heq⟩] at hnode
    cases hnode
  refine ⟨standing, absolute, u₁.handsDown_directoryMode s.home, fun l target hl hlink => ?_,
    fun l e hl he => ?_, fun l hl hne => h.bareLeft.vacant l hl.inside fun side heq => ?_⟩
  · obtain ⟨side, rfl⟩ := hside hl.inside hlink
    have hdir := standing.sides side
    rw [Disk.IsDir, hlink] at hdir
    cases hdir
  · obtain ⟨side, rfl⟩ := hside hl (Disk.node?_of_get? he)
    have hdir := standing.sides side
    rw [Disk.IsDir, Disk.node?_of_get? he, Option.some.injEq] at hdir
    rw [h.bareLeft.modes side e he, hdir]
    rfl
  · subst heq
    obtain rfl := hl.eq (On.self s side)
    exact hne rfl

end Site

namespace Run

variable {r : Run} {file : Path} {w w₁ : World} {env : Environment} {text : String}
  {commands : List (Script.Command Verb)}

/-- What is known about a test that was just set up. -/
structure Opened (r : Run) (file : Path) (env : Environment) (s : Site) (mode : Mode) (d : Disk) :
    Prop where
  built : ∃ start sink, env = r.environment file start sink
  fits : s.Fits env
  valid : ∀ side, s.fault? (env.side side) = none
  staged : s.Staged mode d

/-- A test in a run root with an absolute path has a place of its own once it was set up. -/
theorem opened_of_setUp (absolute : r.root.isAbsolute = true) (tree : w.disk.IsTree)
    (working : w.disk.IsDir w.disk.workingDirectory) (read : w.disk.readText file = .ok text)
    (parse : Script.parse r.registry file.text text = .ok commands)
    {commands' : List (Script.Command Verb)}
    (setUp : (r.setUp file).run w = (.ok (env, commands'), w₁)) :
    commands' = commands ∧ ∃ s mode, r.Opened file env s mode w₁.disk := by
  have hsound : ∀ p : Path, w.disk.IsSound p := fun p => .of_working tree working
  have honly := Tree.onlyDisk_makeDirectories (hsound r.root) Tree.directoryMode
  have hsetUp := r.setUp_of_read read parse
  cases hroot : (Tree.makeDirectories r.root Tree.directoryMode).run w with
  | mk x v =>
  rw [hroot] at hsetUp honly
  cases x with
  | error fault => rw [hsetUp] at setUp; cases setUp
  | ok u =>
  have isName : IsName (testName file).toList := isName_of_readText (hsound file) read
  have hname : (⟨testName file⟩ : Path) = ⟨String.ofList (testName file).toList⟩ := by
    rw [String.ofList_toList]
  have hrel : (⟨testName file⟩ : Path).isAbsolute = false := by
    rw [hname]
    exact Path.isAbsolute_name isName.noSlash
  have habs : (r.root.join ⟨testName file⟩).isAbsolute = r.root.isAbsolute :=
    Path.isAbsolute_join hrel
  cases hmake : v.disk.makeDirectory (Action.time v) (r.root.join ⟨testName file⟩)
      Tree.directoryMode with
  | error fault =>
    rw [setUp] at hsetUp
    simp only at hsetUp
    rw [r.enter_of_error commands hmake] at hsetUp
    cases hsetUp
  | ok d =>
  obtain ⟨dir, n, made⟩ := Disk.made_of_makeDirectory (honly.sound.of_isAbsolute_eq habs) hmake
  obtain ⟨before, hsteps, k, hk, route⟩ := made.steps
  rw [Path.steps_join hrel, hname, Path.steps_name isName] at hsteps
  obtain ⟨rfl, hn⟩ := List.append_inj' hsteps rfl
  cases hn
  let s : Site := ⟨r.root, dir, k, (testName file).toList, isName, .inl absolute⟩
  have hosts : s.Hosts r file := ⟨rfl, String.ofList_toList⟩
  have hfree : v.disk.node? s.root = none := made.free
  have hfound : s.Found v.disk := by
    refine .of_route honly.sound.toIsTree ?_ hfree
    rw [Path.startFrom, habs, ← Path.startFrom] at route
    exact route
  have hbegun := Site.Begun.ofFound hfound made.isDir hfree
  have stage : s.Stage false v.disk v.disk [] v v := ⟨hbegun, hbegun, .refl _, .refl _, rfl,
    fun htimes => by cases htimes⟩
  have hends := stage.setUp hosts read read parse hroot hroot
  rw [setUp] at hends
  cases hends with
  | ok h =>
    obtain rfl : commands' = commands := h.1
    have h : s.Furnished false r.workers v.disk v.disk env env w₁ w₁ := h.2.2
    obtain ⟨start, sink, henv⟩ := h.env
    refine ⟨rfl, s, _, ⟨start, sink, ?_⟩, ?_, h.validSides, h.staged absolute⟩
    · rw [henv, Site.environment, hosts.name]
      rfl
    · have hlog := h.world.env.logs.1
      rw [henv] at hlog ⊢
      exact s.fits_environment r.workers start hlog

/-- The commands that a test has performed have succeeded one after the other. -/
theorem performed_before_of_steps {env' : Environment} {rest : List (Script.Command Verb)}
    (run : Relation.ReflTransGen (r.Steps file) (.running env commands, w)
      (.running env' rest, w₁)) :
    env' = env ∧ ∃ done, commands = done ++ rest ∧ (done.forM env.perform).run w = (.ok (), w₁) := by
  induction commands generalizing w with
  | nil =>
    obtain heq | ⟨z, ⟨-, rfl⟩, hrest⟩ := run.cases_head
    · cases heq
      exact ⟨rfl, [], rfl, rfl⟩
    · rw [Progress.step_nil] at hrest
      cases eq_of_over (by nofun) hrest
  | cons c commands ih =>
    obtain heq | ⟨z, ⟨-, rfl⟩, hrest⟩ := run.cases_head
    · cases heq
      exact ⟨rfl, [], rfl, rfl⟩
    · rw [Progress.step_cons] at hrest
      cases hperform : (env.perform c).run w with
      | mk x v =>
        rw [hperform] at hrest
        cases x with
        | error e => cases eq_of_over (by nofun) hrest
        | ok u =>
          obtain ⟨henv, done, rfl, hdone⟩ := ih hrest
          refine ⟨henv, c :: done, rfl, ?_⟩
          show (env.perform c >>= fun _ => done.forM env.perform).run w = _
          rw [Action.run_bind, hperform]
          exact hdone

/-- If a test has performed all its commands, they have succeeded one after the other. -/
theorem performed_of_steps {env' : Environment}
    (run : Relation.ReflTransGen (r.Steps file) (.running env commands, w) (.running env' [], w₁)) :
    env' = env ∧ (commands.forM env.perform).run w = (.ok (), w₁) := by
  obtain ⟨henv, done, hdone, hperformed⟩ := performed_before_of_steps run
  rw [List.append_nil] at hdone
  exact ⟨henv, hdone ▸ hperformed⟩

/-- The commands make, remove, link and change entries of the left side by local names, once their
arguments are expanded. -/
def StagingCommands (r : Run) (file : Path) (commands : List (Script.Command Verb)) : Prop :=
  ∀ c ∈ commands, ∀ start sink arguments,
    (r.environment file start sink).expandArguments c.handler.name c.arguments = .ok arguments →
    Verb.Stages c.handler.name arguments

/-- Commands that stage the left side as they are written. -/
theorem stagingCommands_of_noDollar
    (plain : ∀ c ∈ commands, ∀ argument ∈ c.arguments, '$' ∉ argument.toList)
    (stages : ∀ c ∈ commands, Verb.Stages c.handler.name c.arguments) :
    r.StagingCommands file commands := expanded_of_noDollar plain stages

/-- After commands that stage the left side, a bare `clone` and a bare `sync`, all of which have
succeeded, the sides of the test match: they have the same names with the same kinds, bytes, paths
of links and permission bits, and all files and directories were modified at the start of the
test. -/
theorem staged_sides_match (r : Run) (file : Path) {w w₁ : World} {env : Environment}
    {text : String} {staging : List (Script.Command Verb)} {clone sync : Script.Command Verb}
    (registry : r.registry = Verb.standard) (absolute : r.root.isAbsolute = true)
    (tree : w.disk.IsTree) (working : w.disk.IsDir w.disk.workingDirectory)
    (read : w.disk.readText file = .ok text)
    (parse : Script.parse r.registry file.text text = .ok (staging ++ [clone, sync]))
    (stages : r.StagingCommands file staging)
    (isClone : clone.handler.name = "clone" ∧ clone.arguments = [])
    (isSync : sync.handler.name = "sync" ∧ sync.arguments = [])
    (run : Relation.ReflTransGen (r.Steps file) (.waiting, w) (.running env [], w₁)) :
    ∃ left right, w₁.disk.Names env.lhs left ∧ w₁.disk.Names env.rhs right ∧
      w₁.disk.IsDir left ∧ w₁.disk.Matches env.start left right := by
  obtain heq | ⟨z, ⟨-, rfl⟩, hrest⟩ := run.cases_head
  · cases heq
  rw [Progress.step_waiting] at hrest
  cases hsetUp : (r.setUp file).run w with
  | mk x v =>
  rw [hsetUp] at hrest
  cases x with
  | error e => cases eq_of_over (by nofun) hrest
  | ok x =>
  obtain ⟨env', commands⟩ := x
  obtain ⟨rfl, s, mode, opened⟩ := opened_of_setUp absolute tree working read parse hsetUp
  obtain ⟨rfl, hperformed⟩ := performed_of_steps hrest
  have hmem : ∀ c ∈ staging ++ [clone, sync], c.handler ∈ Verb.standard.handlers := by
    rw [← registry]
    exact Script.handler_mem_of_parse parse
  have fits := opened.fits
  have hstaging : s.Keeps mode (staging.forM env.perform) := by
    obtain ⟨start, sink, henv⟩ := opened.built
    refine Action.Triple.forM_keeps fun c hc => Site.Keeps.perform fits
      (hmem c (List.mem_append_left _ hc)) fun arguments hexpand => ?_
    exact stages c hc start sink arguments (henv ▸ hexpand)
  have hlast : Action.Triple (s.Staged mode) ([clone, sync].forM env.perform)
      fun _ d => s.Mirrored d ∧ d.Matches env.start (s.side .lhs) (s.side .rhs) :=
    (Site.perform_clone fits (hmem clone (by simp)) isClone.1 isClone.2).bind fun _ =>
      (Site.perform_sync fits (hmem sync (by simp)) isSync.1 isSync.2).bind fun _ => .pure fun _ => id
  have hall := Action.Triple.forM_append hstaging fun _ => hlast
  obtain ⟨mirrored, hmatches⟩ := hall v () w₁ opened.staged hperformed
  have hnames : ∀ side, w₁.disk.Names (env.side side) (s.side side) := by
    intro side
    obtain ⟨names, n, places, hloc⟩ := (fits.marks side).places
    rw [List.append_nil] at hloc
    rw [← hloc]
    have isDir := mirrored.sides side
    rw [← hloc] at isDir
    exact places.leads mirrored.toFound (mirrored.tree.named (by
      rw [show w₁.disk.node? _ = _ from isDir]
      nofun)) isDir (opened.valid side)
  exact ⟨s.side .lhs, s.side .rhs, hnames .lhs, hnames .rhs, mirrored.sides .lhs, hmatches⟩

/-- A test that is not over after so many steps has come there step by step. -/
theorem reaches_steps (n : Nat) {x : Progress × World}
    (h : (Progress.steps r file n x).1.outcome? = none) :
    Relation.ReflTransGen (r.Steps file) x (Progress.steps r file n x) := by
  induction n generalizing x with
  | zero => exact .refl
  | succ n ih =>
    refine .head ⟨?_, rfl⟩ (ih h)
    obtain ⟨p, w⟩ := x
    cases p with
    | finished outcome =>
      have hfixed : Progress.steps r file (n + 1) (.finished outcome, w) = (.finished outcome, w) :=
        Function.iterate_fixed (f := fun y : Progress × World => y.1.step r file y.2) rfl (n + 1)
      rw [hfixed] at h
      cases h
    | _ => rfl

/-- A file is made through a link, which is then removed. -/
theorem sides_match_after_link :
    let entry : Node → Entry := fun node => ⟨node, 0o755, ⟨0, 0⟩, ⟨0, 0⟩⟩
    let d : Disk := ⟨[([], entry .directory), (["a.t".toList], entry (.file 0
      "symlink lhs=d/l@d\nmkfile -m1 -M1 d/l/f\nrm lhs=d/l\nclone\nsync\n".toUTF8.data))], 1, []⟩
    let r : Run := { root := ⟨"/run"⟩, registry := Verb.standard, target := .console, workers := 1 }
    let w : World := ⟨⟨d, []⟩, .seeded 0, fun n => ⟨n, 0⟩, 0⟩
    ∃ env w₁, Relation.ReflTransGen (r.Steps ⟨"/a.t"⟩) (.waiting, w) (.running env [], w₁) ∧
      ∃ left right, w₁.disk.Names env.lhs left ∧ w₁.disk.Names env.rhs right ∧
        w₁.disk.IsDir left ∧ w₁.disk.Matches env.start left right := by
  intro entry d r w
  have tree : w.disk.IsTree := .of_entries (by decide) rfl (by decide)
  have read : w.disk.readText ⟨"/a.t"⟩ =
      .ok "symlink lhs=d/l@d\nmkfile -m1 -M1 d/l/f\nrm lhs=d/l\nclone\nsync\n" := by rfl
  have parse : Script.parse r.registry "/a.t"
      "symlink lhs=d/l@d\nmkfile -m1 -M1 d/l/f\nrm lhs=d/l\nclone\nsync\n" =
      .ok ([⟨⟨"symlink", Verb.link⟩, "symlink", ["lhs=d/l@d"], 1⟩,
        ⟨⟨"mkfile", Verb.make⟩, "mkfile", ["-m1", "-M1", "d/l/f"], 2⟩,
        ⟨⟨"rm", Verb.remove⟩, "rm", ["lhs=d/l"], 3⟩] ++
        [⟨⟨"clone", Verb.copy⟩, "clone", [], 4⟩, ⟨⟨"sync", Verb.stamp "sync"⟩, "sync", [], 5⟩]) := by
    rfl
  have hrank : (Progress.steps r ⟨"/a.t"⟩ 6 (.waiting, w)).1.rank = (0, 1) := by decide +kernel
  have hsteps := @reaches_steps r ⟨"/a.t"⟩ 6 (.waiting, w)
  generalize Progress.steps r ⟨"/a.t"⟩ 6 (.waiting, w) = x at hrank hsteps
  obtain ⟨p, w₁⟩ := x
  cases p with
  | waiting => cases hrank
  | finished outcome => cases hrank
  | running env commands =>
    obtain rfl : commands = [] := by simpa [Progress.rank] using hrank
    refine ⟨env, w₁, hsteps rfl, ?_⟩
    exact staged_sides_match r ⟨"/a.t"⟩ rfl (by decide) tree rfl read parse
      (stagingCommands_of_noDollar (by decide) (by decide)) ⟨rfl, rfl⟩ ⟨rfl, rfl⟩ (hsteps rfl)

end Run

end TwinTrees
