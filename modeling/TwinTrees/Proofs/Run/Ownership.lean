import Mathlib.Logic.Relation
import TwinTrees.Proofs.Pool.Interleaving
import TwinTrees.Proofs.Run.Alone

/-!
# Tests own their directories

A test that enters the run root makes a directory of its own, and only where there was none. From
then on until it has removed it, nothing else makes a directory of that name, and nobody else
changes what is in it: every other test acts in its own. `Owning` is this invariant of a batch, for
whatever is in the run root at first. It does not say what the tests come to, so scripts may read
differently in the course of a batch; they must have local names only whenever they are read.
-/

namespace TwinTrees

namespace Site

variable {s : Site} {times : Bool} {workers : Nat} {x y : Progress × World}

theorem SameWorld.left_refl {env₁ env₂ : Environment} {w₁ w₂ : World}
    (h : s.SameWorld times env₁ env₂ w₁ w₂) : s.SameWorld times env₁ env₁ w₁ w₁ where
  env := { h.env with
    name := rfl
    root := rfl
    lhs := rfl
    rhs := rfl
    workers := rfl
    start := fun _ => rfl
    sink := h.env.sink.imp (fun h => ⟨h.1, h.1⟩) fun ⟨path, f, _, h, _, hf, _⟩ =>
      ⟨path, f, f, h, h, hf, hf⟩ }
  twins := ⟨h.twins.left, h.twins.left, .refl _⟩
  source := rfl
  clock _ := rfl
  left := h.left
  right := h.left

/-- A test that has come as far as another run of it has come as far as itself. -/
theorem SameProgress.left_refl (h : s.SameProgress times workers x y) :
    s.SameProgress times workers x x := by
  cases h with
  | running world env valid ready handlers names =>
    exact .running world.left_refl env valid ⟨ready.1, ready.1⟩ handlers names
  | finished ended =>
    refine .finished ?_
    cases ended with
    | kept error keeps left => exact .kept error keeps left left (.refl _)
    | gone keeps left => exact .gone keeps left left

/-- Where the directory of a test in progress is. -/
theorem SameProgress.leads {env : Environment} {commands : List (Script.Command Verb)} {w : World}
    (h : s.SameProgress times workers (.running env commands, w) y) :
    w.disk.Names env.root s.root ∧ w.disk.IsDir s.root := by
  cases h with
  | running world henv valid ready =>
    have hroot := world.twins.left.isDir_root
    have hplaces : s.Places env.root [] s.name := by
      obtain ⟨start, sink, henv⟩ := henv
      rw [henv]
      exact s.places_root
    have hleads := hplaces.leads ready.1.found s.isName (by rwa [s.home_append]) valid
    rw [s.home_append] at hleads
    exact ⟨hleads, hroot⟩

end Site

namespace Run

variable {r : Run} {start made d : Disk} {g : Ground} {tests : List (Path × Draws)} {file : Path}
  {i j workers : Nat} {jobs jobs' : Nat → Option TestJob} {shared shared' : Shared} {job : TestJob}
  {w : World} {n : Name} {p q : Pool (Path × Draws) TestJob Shared RunError}
  {h : Pool.History RunError}

theorem Course.tree (course : Course g start made d) (h : r.Rooted start made) : d.IsTree := by
  cases course with
  | fresh => exact h.tree
  | rooted ready => exact ready.tree

theorem Course.working (course : Course g start made d) (h : r.Rooted start made)
    (bears : r.Bears made g) : d.IsDir d.workingDirectory := by
  cases course with
  | fresh => exact h.working
  | rooted ready alike =>
    have hmade : made.IsDir made.workingDirectory := by
      obtain ⟨node, hnode, hshown⟩ := h.extends_made.node _ _ h.working
      rw [h.extends_made.workingDirectory, Disk.IsDir, hnode, Node.shown_eq_directory_iff.1 hshown]
    have hapart : g.Apart made.workingDirectory := by
      by_contra hin
      rw [Disk.IsDir, bears.vacant _ hin] at hmade
      cases hmade
    rw [← alike.workingDirectory]
    exact alike.isDir hapart hmade

/-! ## The first step -/

/-- What has become of a test after its first step in the world `w`: it has no script; or there was
a directory of its name; or it has entered the run root. -/
inductive Arrival (r : Run) (g : Ground) (start made : Disk) (file : Path) (w : World) :
    Progress × World → Prop
  | failed {e : RunError} {w' : World} (left : e.keepsRoot = false) (same : w'.disk = w.disk)
      (noScript : ∀ commands, ((readScript r.registry file).run w).1 ≠ .ok commands) :
      Arrival r g start made file w (.finished (.error e), w')
  | refused {w' : World} (isName : IsName (testName file).toList) (ready : g.Ready w.disk)
      (there : w.disk.node? (g.home ++ [(testName file).toList]) ≠ none)
      (same : w'.disk = w.disk) :
      Arrival r g start made file w (.finished (.error (.environment (testName file) "test root"
        (((g.site _ isName).fault? (r.root.join ⟨testName file⟩)).getD
          (.os Errno.alreadyExists)))), w')
  | entered {x : Progress × World} {d : Disk} (isName : IsName (testName file).toList)
      (ready : g.Ready d) (alike : Disk.Alike false g.Apart made d)
      (found : g.Ready w.disk ∧ d = w.disk ∨ ¬ g.Ready w.disk ∧ w.disk = start ∧ g.Vacant d)
      (free : d.node? (g.home ++ [(testName file).toList]) = none)
      (same : (g.site _ isName).SameProgress true r.workers x x)
      (stays : (g.site _ isName).Stays d x.2.disk)
      (opens : (g.site _ isName).Opens ((g.site _ isName).newMode d) x) :
      Arrival r g start made file w x

theorem arrival (registry : r.registry = Verb.standard) (h : r.Rooted start made)
    (bears : r.Bears made g) (course : Course g start made w.disk)
    (names : r.LocalScript w.disk file) :
    Arrival r g start made file w (Progress.step r file .waiting w) := by
  rw [Progress.step_waiting]
  cases hread : w.disk.readText file with
  | error fault =>
    rw [r.setUp_of_unread hread]
    refine .failed rfl rfl fun commands => ?_
    unfold readScript
    rw [Action.run_bind, Action.run_mapError, Action.run_ask, hread]
    nofun
  | ok text =>
    cases hparse : Script.parse r.registry file.text text with
    | error error =>
      rw [r.setUp_of_unparsed hread hparse]
      refine .failed rfl rfl fun commands => ?_
      unfold readScript
      rw [Action.run_bind, Action.run_mapError, Action.run_ask, hread]
      simp only [Except.mapError]
      rw [Action.run_ask, hparse]
      nofun
    | ok commands =>
      obtain ⟨w₁, k, hmake, rooting⟩ := makeRoot h bears course
      have isName := isName_of_readText
        (.of_working (course.tree h) (course.working h bears)) hread
      have hosts : (g.site _ isName).Hosts r file := ⟨bears.path, String.ofList_toList⟩
      by_cases free : w₁.disk.node? (g.site _ isName).root = none
      · have hbegun := Site.Begun.ofReady (rooting.ready _ isName) free
        obtain ⟨hsame, hstays, -, hopens⟩ := Site.sameProgress_of_setUp true hosts registry
          hread hread hparse (names text commands hread hparse) hmake hmake
          ⟨rooting.ready _ isName, rooting.ready _ isName⟩
          ⟨hbegun, hbegun, .refl _, .refl _, rfl, fun _ => rfl⟩
        rw [← Progress.step_waiting]
        exact .entered isName rooting.ready rooting.alike
          (rooting.found.imp (fun h => ⟨h.1, h.2.1⟩) id) free hsame hstays hopens
      · obtain ⟨ready, hdisk, -⟩ | ⟨-, -, hvacant⟩ := rooting.found
        · have henter := Site.enter_there hosts.root (rooting.ready _ isName) free commands
          rw [hosts.name, hosts.root] at henter
          rw [r.setUp_of_read hread hparse, hmake]
          simp only
          rw [henter]
          exact .refused isName ready (hdisk ▸ free) hdisk
        · exact absurd (hvacant _ (Ground.not_apart List.prefix_rfl)) free

/-! ## The invariant -/

/-- The invariant of a batch (see the module docstring). -/
structure Owning (r : Run) (g : Ground) (start made : Disk) (tests : List (Path × Draws))
    (jobs : Nat → Option TestJob) (shared : Shared) : Prop where
  course : Course g start made shared.disk
  listed : ∀ {i job}, jobs i = some job → ∃ test ∈ tests, job.file = test.1
  ready : ∀ {i job}, jobs i = some job → job.progress.holds = true → g.Ready shared.disk
  same : ∀ {i job}, jobs i = some job → job.progress.holds = true →
    ∃ isName : IsName (testName job.file).toList, (g.site _ isName).SameProgress true r.workers
      (job.progress, ⟨shared, job.draws⟩) (job.progress, ⟨shared, job.draws⟩)
  exclusive : ∀ {i j job other}, jobs i = some job → jobs j = some other →
    job.progress.holds = true → other.progress.holds = true →
    testName job.file = testName other.file → i = j

/-- What is at and below a name in the run root is as it was. -/
def Spares (g : Ground) (n : Name) (d d' : Disk) : Prop :=
  ∀ l, g.home ++ [n] <+: l → d'.get? l = d.get? l

theorem Spares.refl (d : Disk) : Spares g n d d := fun _ _ => rfl

theorem Spares.trans {d' d'' : Disk} (h : Spares g n d d') (h' : Spares g n d' d'') :
    Spares g n d d'' := fun l hl => (h' l hl).trans (h l hl)

/-- The run root is there, and something with the name in it. -/
def Taken (g : Ground) (n : Name) (d : Disk) : Prop :=
  g.Ready d ∧ d.node? (g.home ++ [n]) ≠ none

theorem Spares.taken {d' : Disk} (h : Spares g n d d') (taken : Taken g n d) (ready : g.Ready d') :
    Taken g n d' := by
  refine ⟨ready, ?_⟩
  rw [Disk.node?, h _ List.prefix_rfl]
  exact taken.2

theorem Spares.of_stays {name : Name} {isName : IsName name} {d' : Disk} (hne : n ≠ name)
    (stays : (g.site name isName).Stays d d') : Spares g n d d' := by
  intro l hl
  refine stays.off.get? ?_
  rintro (hbelow | rfl)
  · have hroot := List.prefix_of_prefix_length_le hl hbelow (by simp [Site.root, Ground.site])
    have := List.append_inj_right (hroot.eq_of_length (by simp [Site.root, Ground.site])) rfl
    exact hne (List.cons.inj this).1
  · have := hl.length_le
    simp only [Ground.site, List.length_append, List.length_cons, List.length_nil] at this
    omega

/-- The name is taken in the run root, and not by a test that is not over. -/
def Left (r : Run) (g : Ground) (n : Name) (jobs : Nat → Option TestJob) (d : Disk) : Prop :=
  Taken g n d ∧ ∀ {i job}, jobs i = some job → r.work.outcome? job = none →
    job.progress.holds = true → n ≠ (testName job.file).toList

namespace Owning

theorem of_course (course : Course g start made shared.disk) :
    Owning r g start made tests (fun _ => none) shared where
  course := course
  listed := nofun
  ready := nofun
  same := nofun
  exclusive := nofun

variable (o : Owning r g start made tests jobs shared)
include o

theorem there (begun : jobs i = some job) (holds : job.progress.holds = true) :
    shared.disk.node? (g.home ++ [(testName job.file).toList]) ≠ none := by
  obtain ⟨isName, same⟩ := o.same begun holds
  exact same.holds_iff.1 holds

/-- A job that has no directory begins, or is over, and the disk is as it was. -/
theorem quiet (disk : shared'.disk = shared.disk) (after : job.progress.holds = false)
    (listed : ∃ test ∈ tests, job.file = test.1) :
    Owning r g start made tests (Function.update jobs i (some job)) shared' where
  course := by rw [disk]; exact o.course
  listed hj := by
    obtain ⟨-, rfl⟩ | ⟨-, hj⟩ := Pool.update_eq_some hj
    · exact listed
    · exact o.listed hj
  ready hj holds := by
    obtain ⟨-, rfl⟩ | ⟨-, hj⟩ := Pool.update_eq_some hj
    · rw [after] at holds; cases holds
    · rw [disk]; exact o.ready hj holds
  same hj holds := by
    obtain ⟨-, rfl⟩ | ⟨-, hj⟩ := Pool.update_eq_some hj
    · rw [after] at holds; cases holds
    · obtain ⟨isName, same⟩ := o.same hj holds
      exact ⟨isName, Site.SameProgress.left_refl (same.of_disk disk rfl rfl)⟩
  exclusive hj hj' holds holds' name := by
    obtain ⟨-, rfl⟩ | ⟨-, hj⟩ := Pool.update_eq_some hj
    · rw [after] at holds; cases holds
    · obtain ⟨-, rfl⟩ | ⟨-, hj'⟩ := Pool.update_eq_some hj'
      · rw [after] at holds'; cases holds'
      · exact o.exclusive hj hj' holds holds' name

/-- The run root is made. -/
theorem root (fresh : ¬ g.Ready shared.disk) (ready : g.Ready d)
    (alike : Disk.Alike false g.Apart made d) :
    Owning r g start made tests jobs ⟨d, shared.journal⟩ where
  course := .rooted ready alike
  listed := o.listed
  ready hj holds := absurd (o.ready hj holds) fresh
  same hj holds := absurd (o.ready hj holds) fresh
  exclusive := o.exclusive

/-- A test acts in its directory. -/
theorem act (h : r.Rooted start made) (bears : r.Bears made g) (ready : g.Ready shared.disk)
    (isName : IsName (testName job.file).toList)
    (others : ∀ j other, j ≠ i → jobs j = some other → other.progress.holds = true →
      testName other.file ≠ testName job.file)
    (stays : (g.site _ isName).Stays shared.disk shared'.disk)
    (listed : ∃ test ∈ tests, job.file = test.1)
    (same : (g.site _ isName).SameProgress true r.workers (job.progress, ⟨shared', job.draws⟩)
      (job.progress, ⟨shared', job.draws⟩)) :
    Owning r g start made tests (Function.update jobs i (some job)) shared' := by
  have hready : g.Ready shared'.disk := ready.of_alike stays.tree stays.apart
  refine ⟨.rooted hready ((o.course.alike h bears ready).trans stays.apart), fun hj => ?_,
    fun _ _ => hready, fun hj holds => ?_, fun hj hj' holds holds' name => ?_⟩
  · obtain ⟨-, rfl⟩ | ⟨-, hj⟩ := Pool.update_eq_some hj
    · exact listed
    · exact o.listed hj
  · obtain ⟨-, rfl⟩ | ⟨hne, hj⟩ := Pool.update_eq_some hj
    · exact ⟨isName, same⟩
    · obtain ⟨isName', same'⟩ := o.same hj holds
      have b : (g.site _ isName').Beside (g.site _ isName) :=
        ⟨rfl, fun heq => others _ _ hne hj holds (String.toList_inj.1 heq.symm)⟩
      exact ⟨isName', Site.SameProgress.left_refl (same'.beside b stays rfl rfl)⟩
  · obtain ⟨rfl, rfl⟩ | ⟨hne, hbegun⟩ := Pool.update_eq_some hj
    · obtain ⟨rfl, -⟩ | ⟨hne', hbegun'⟩ := Pool.update_eq_some hj'
      · rfl
      · exact absurd name.symm (others _ _ hne' hbegun' holds')
    · obtain ⟨rfl, rfl⟩ | ⟨-, hbegun'⟩ := Pool.update_eq_some hj'
      · exact absurd name (others _ _ hne hbegun holds)
      · exact o.exclusive hbegun hbegun' holds holds' name

/-- A test takes a step, and changes nothing at and below the other names in the run root. -/
theorem advance (registry : r.registry = Verb.standard) (h : r.Rooted start made)
    (bears : r.Bears made g) (begun : jobs i = some job) (open' : r.work.outcome? job = none)
    (names : job.progress = .waiting → r.LocalScript shared.disk job.file) :
    Owning r g start made tests (Function.update jobs i (some (r.work.advance job shared).1))
        (r.work.advance job shared).2 ∧
      ∀ n, Taken g n shared.disk → (job.progress.holds = true → n ≠ (testName job.file).toList) →
        Taken g n (r.work.advance job shared).2.disk ∧
          Spares g n shared.disk (r.work.advance job shared).2.disk ∧
          ((r.work.advance job shared).1.progress.holds = true → n ≠ (testName job.file).toList) := by
  have listed := o.listed begun
  obtain ⟨file, draws, progress⟩ := job
  by_cases holds : progress.holds = true
  · obtain ⟨isName, same⟩ := o.same begun holds
    obtain ⟨hstep, hstays, -⟩ := same.step r file
    have ready := o.ready begun holds
    have stays := hstays ready.tree
    refine ⟨o.act h bears ready isName (fun j other hne hj hother heq => ?_) stays listed hstep,
      fun n taken hn => ?_⟩
    · exact hne (o.exclusive hj begun hother holds heq)
    · have spares := Spares.of_stays (hn holds) stays
      exact ⟨spares.taken taken (ready.of_alike stays.tree stays.apart), spares, fun _ => hn holds⟩
  · obtain rfl : progress = .waiting := by
      cases progress with
      | waiting => rfl
      | running => exact absurd rfl holds
      | finished => cases open'
    have harrival := arrival (w := ⟨shared, draws⟩) registry h bears o.course (names rfl)
    have hadvance : r.work.advance ⟨file, draws, .waiting⟩ shared =
        (⟨file, (Progress.step r file .waiting ⟨shared, draws⟩).2.toDraws,
          (Progress.step r file .waiting ⟨shared, draws⟩).1⟩,
          (Progress.step r file .waiting ⟨shared, draws⟩).2.toShared) := rfl
    rw [hadvance]
    generalize Progress.step r file .waiting ⟨shared, draws⟩ = x at harrival
    cases harrival with
    | @failed e w' left same =>
      have same : w'.disk = shared.disk := same
      refine ⟨o.quiet same left listed, fun n taken _ => ⟨?_, ?_, fun holds =>
        absurd (left.symm.trans holds) Bool.false_ne_true⟩⟩
      · rwa [same]
      · rw [same]; exact .refl _
    | @refused w' isName ready there same =>
      have same : w'.disk = shared.disk := same
      refine ⟨o.quiet same rfl listed, fun n taken _ => ⟨?_, ?_, nofun⟩⟩
      · rwa [same]
      · rw [same]; exact .refl _
    | @entered x d isName ready alike found free same stays =>
      refine ⟨?_, fun n taken _ => ?_⟩
      · have o' : Owning r g start made tests jobs ⟨d, shared.journal⟩ := by
          obtain ⟨-, rfl⟩ | ⟨fresh, -, -⟩ := found
          · exact o
          · exact o.root fresh ready alike
        refine o'.act h bears ready isName (fun j other _ hj hother heq => ?_) stays listed same
        refine absurd free ?_
        rw [← heq]
        exact o'.there hj hother
      · obtain ⟨-, rfl⟩ | ⟨fresh, -, -⟩ := found
        · have hne : n ≠ (testName file).toList := by
            rintro rfl
            exact taken.2 free
          have spares := Spares.of_stays hne stays
          exact ⟨spares.taken taken (ready.of_alike stays.tree stays.apart), spares, fun _ => hne⟩
        · exact absurd taken.1 fresh

/-- The tests go on, and what no test that is not over could change stays as it is. -/
theorem turn (registry : r.registry = Verb.standard) (h : r.Rooted start made)
    (bears : r.Bears made g) (names : ∀ test ∈ tests, r.LocalScript shared.disk test.1)
    (turn : Pool.Turn r.work tests jobs shared jobs' shared') :
    Owning r g start made tests jobs' shared' ∧
      ∀ n, Left r g n jobs shared.disk → Left r g n jobs' shared'.disk ∧
        Spares g n shared.disk shared'.disk := by
  cases turn with
  | rest => exact ⟨o, fun n left => ⟨left, .refl _⟩⟩
  | @begin i item listed new =>
    refine ⟨o.quiet rfl rfl ⟨item, List.mem_of_getElem? listed, rfl⟩, fun n left =>
      ⟨⟨left.1, fun hj open' holds => ?_⟩, .refl _⟩⟩
    obtain ⟨-, rfl⟩ | ⟨-, hj⟩ := Pool.update_eq_some hj
    · cases holds
    · exact left.2 hj open' holds
  | @advance i job begun open' =>
    obtain ⟨test, htest, hfile⟩ := o.listed begun
    obtain ⟨owning, spares⟩ := o.advance registry h bears begun open' fun _ =>
      hfile ▸ names test htest
    refine ⟨owning, fun n left => ?_⟩
    obtain ⟨taken, hspares, hafter⟩ := spares n left.1 (left.2 begun open')
    refine ⟨⟨taken, fun hj hopen holds => ?_⟩, hspares⟩
    obtain ⟨-, rfl⟩ | ⟨-, hj⟩ := Pool.update_eq_some hj
    · exact hafter holds
    · exact left.2 hj hopen holds

end Owning

/-! ## In a pool -/

/-- A disk at some moment between the batches of a run: as at the start, or with the run root in its
place, whatever is in it. -/
def Along (r : Run) (start made d : Disk) : Prop := ∃ g, r.Bears made g ∧ Course g start made d

theorem Rooted.along (h : r.Rooted start made) : r.Along start made start :=
  let ⟨g, bears⟩ := h.exists_ground
  ⟨g, bears, .fresh⟩

section

variable (registry : r.registry = Verb.standard) (rooted : r.Rooted start made)
  (bears : r.Bears made g)
  (names : ∀ p h, Pool.Runs r.work tests workers shared p h →
    Course g start made p.shared.disk → ∀ test ∈ tests, r.LocalScript p.shared.disk test.1)
include registry rooted bears names

/-- Whatever the schedule of a batch, tests own their directories, and what is in the run root at
first stays as it is. -/
theorem owning_of_runs (course : Course g start made shared.disk)
    (run : Pool.Runs r.work tests workers shared p h) :
    ∃ jobs, Pool.Shows r.work p h jobs ∧ Owning r g start made tests jobs p.shared ∧
      ∀ n, Taken g n shared.disk →
        Left r g n jobs p.shared.disk ∧ Spares g n shared.disk p.shared.disk := by
  induction run with
  | start => exact ⟨_, .start, .of_course course, fun n taken => ⟨⟨taken, nofun⟩, .refl _⟩⟩
  | move m before possible ih =>
    obtain ⟨jobs, hshows, owning, hleft⟩ := ih
    obtain ⟨jobs', turn, hshows'⟩ := hshows.move before possible
    obtain ⟨owning', hturn⟩ := owning.turn registry rooted bears (names _ _ before owning.course) turn
    refine ⟨jobs', hshows', owning', fun n taken => ?_⟩
    obtain ⟨left, spares⟩ := hleft n taken
    exact ⟨(hturn n left).1, spares.trans (hturn n left).2⟩

/-- From any moment of a batch on, tests that are over stay over, and what no other test could
change stays as it is. -/
theorem owning_onward (run : Pool.Runs r.work tests workers shared p h)
    (shown : Pool.Shows r.work p h jobs) (o : Owning r g start made tests jobs p.shared)
    (onward : Relation.ReflTransGen (fun p q => ∃ m, p.move? r.work m = some q) p q) :
    ∃ h' jobs', Pool.Runs r.work tests workers shared q h' ∧ Pool.Shows r.work q h' jobs' ∧
      Owning r g start made tests jobs' q.shared ∧
      (∀ i job, jobs i = some job → r.work.outcome? job ≠ none → jobs' i = some job) ∧
      ∀ n, Left r g n jobs p.shared.disk →
        Left r g n jobs' q.shared.disk ∧ Spares g n p.shared.disk q.shared.disk := by
  induction onward with
  | refl => exact ⟨h, jobs, run, shown, o, fun _ _ hj _ => hj, fun n left => ⟨left, .refl _⟩⟩
  | tail _ possible ih =>
    obtain ⟨h', jobs', run', shown', owning, hover, hleft⟩ := ih
    obtain ⟨m, possible⟩ := possible
    obtain ⟨jobs'', turn, shown''⟩ := shown'.move run' possible
    obtain ⟨owning', hturn⟩ := owning.turn registry rooted bears (names _ _ run' owning.course) turn
    refine ⟨_, jobs'', run'.move m possible, shown'', owning', fun i job hj isOver =>
      turn.over (hover i job hj isOver) isOver, fun n left => ?_⟩
    obtain ⟨left', spares⟩ := hleft n left
    exact ⟨(hturn n left').1, spares.trans (hturn n left').2⟩

end

end Run

end TwinTrees
