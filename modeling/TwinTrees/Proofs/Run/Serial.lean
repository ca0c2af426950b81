import TwinTrees.Proofs.Disk.Slashes
import TwinTrees.Proofs.Run.Agreement
import TwinTrees.Proofs.Run.Calls
import TwinTrees.Proofs.Run.Confinement

/-!
# A batch in order

The tests of a batch that run in order find the run root missing or empty, one after the other,
since a test that passes leaves nothing in it. The first test that fails ends the batch: its error
is that of the batch, and nothing happens after it. What is in the run root then is the directory of
this test, if it had one, as the failure has left it (`Run.batch_ends_at_failure`).
-/

namespace TwinTrees.Run

variable {r : Run} {start made : Disk} {g : Ground} {file : Path} {draws : Draws} {e : RunError}
  {tests before after : List (Path × Draws)} {w w₁ w' v : World} {d : Disk} {text : String}
  {commands : List (Script.Command Verb)}

/-- A run whose root is not there. If it can be made, nothing is in it. -/
structure Unmade (r : Run) (start : Disk) : Prop where
  /-- As `newRoot` has it. -/
  named : ∃ (base : Path) (name : String), r.root = base.join ⟨name⟩ ∧ IsName name.toList
  anchored : r.root.isAbsolute = true ∨ Component.up ∉ r.root.components
  tree : start.IsTree
  working : start.IsDir start.workingDirectory
  absent : start.lookAt r.root = .error (.os Errno.noEntry)
  empty : ∀ w w' : World, w.disk = start →
    (Tree.makeDirectories r.root Tree.directoryMode).run w = (.ok (), w') →
    w'.disk.list r.root = .ok []

/-- A root that can be made and is empty then was not made yet if no directory is found at it. -/
theorem Rooted.unmade (rooted : r.Rooted start made) (absent : start.isDirectory r.root = false) :
    r.Unmade start where
  named := rooted.named
  anchored := rooted.anchored
  tree := rooted.tree
  working := rooted.working
  absent := by
    obtain ⟨w, w', rfl, -, hmake⟩ := rooted.makes
    obtain there | free := Tree.there_or_free_of_makeDirectories rooted.text_isEmpty
      rooted.endsInSlash (congrArg Prod.fst hmake)
    · rw [absent] at there
      cases there
    · exact free
  empty := by
    intro w w' hw hmake
    obtain ⟨g, bears⟩ := rooted.exists_ground
    obtain ⟨v, k, hmakes, rooting⟩ := makeRoot rooted bears (w := w) (hw ▸ .fresh)
    cases hmakes.symm.trans hmake
    have vacant : g.Vacant w'.disk := by
      rcases rooting.found with ⟨ready, heq, -⟩ | ⟨-, -, vacant⟩
      · rw [heq, hw, ← rooted.made_eq_of_isDirectory (bears.path ▸ (hw ▸ ready).isDirectory)]
        exact bears.vacant
      · exact vacant
    have hlist := rooting.ready.names.list rooting.ready.tree rooting.ready.isDir
    rw [bears.path] at hlist
    have hnames : w'.disk.names g.home = [] := Disk.names_eq_nil_iff.2 fun n =>
      vacant _ (not_not_intro ⟨List.prefix_append _ _, by simp⟩)
    rw [hlist, hnames]

/-- Tests that run in order pass, from one world to another. -/
inductive Passed (r : Run) : World → List (Path × Draws) → World → Prop
  | nil {w : World} : Passed r w [] w
  | cons {w w₁ w' : World} {file : Path} {draws : Draws} {rest : List (Path × Draws)}
      (passes : ((r.test file).withDraws draws).run w = (.ok (), w₁))
      (onward : Passed r w₁ rest w') : Passed r w ((file, draws) :: rest) w'

/-- In the world `v` the test in a file has failed that began in the world `w`: its set-up has, or a
command to which it has come. -/
inductive Breaks (r : Run) (file : Path) (w : World) (e : RunError) (v : World) : Prop
  | setUp (fails : (r.setUp file).run w = (.error e, v))
  | command {env : Environment} {c : Script.Command Verb} {rest : List (Script.Command Verb)}
      {v₀ : World} (reached : Relation.ReflTransGen (r.Steps file) (.waiting, w)
        (.running env (c :: rest), v₀))
      (fails : (env.perform c).run v₀ = (.error e, v))

/-! ## One test after the other -/

theorem inOrder_of_passed (h : r.Passed w before w₁) :
    (r.inOrder (before ++ after)).run w = (r.inOrder after).run w₁ := by
  induction h with
  | nil => rfl
  | @cons w _ _ file draws rest passes _ ih =>
    have horder : r.inOrder ((file, draws) :: (rest ++ after)) =
        (do (r.test file).withDraws draws; r.inOrder (rest ++ after)) := rfl
    rw [List.cons_append, horder, Action.run_bind, passes]
    exact ih

/-- The batch ends with the first failure, whatever tests there are after it. -/
theorem tests_of_failure (passed : r.Passed w before w₁)
    (fails : ((r.test file).withDraws draws).run w₁ = (.error e, w')) :
    (r.tests false (before ++ (file, draws) :: after)).run w = (.error e, w') := by
  have htests : r.tests false (before ++ (file, draws) :: after) =
      (do r.inOrder (before ++ (file, draws) :: after); r.removeRoot) := rfl
  have horder : r.inOrder ((file, draws) :: after) =
      (do (r.test file).withDraws draws; r.inOrder after) := rfl
  rw [htests, Action.run_bind, inOrder_of_passed passed, horder, Action.run_bind, fails]

/-! ## The run root between two tests -/

/-- The run root is not made yet, or it is empty. -/
def Blank (r : Run) (start d : Disk) : Prop :=
  d = start ∨ ∃ made g, r.Rooted start made ∧ r.Bears made g ∧ Between g start made d

namespace Unmade

variable (unmade : r.Unmade start)
include unmade

theorem isSound (p : Path) : start.IsSound p := .of_working unmade.tree unmade.working

theorem rooted (hw : w.disk = start)
    (hmake : (Tree.makeDirectories r.root Tree.directoryMode).run w = (.ok (), w')) :
    r.Rooted start w'.disk where
  named := unmade.named
  anchored := unmade.anchored
  tree := unmade.tree
  working := unmade.working
  makes := ⟨w, w', hw, rfl, hmake⟩
  empty := unmade.empty w w' hw hmake

/-- Either the root is made, or it can be, or it cannot. -/
theorem cases (blank : r.Blank start w.disk) :
    (∃ made g, r.Rooted start made ∧ r.Bears made g ∧ Between g start made w.disk) ∨
      w.disk = start ∧ ∃ fault w',
        (Tree.makeDirectories r.root Tree.directoryMode).run w = (.error fault, w') := by
  rcases blank with hw | made
  · rcases hmake : (Tree.makeDirectories r.root Tree.directoryMode).run w with ⟨fault | u, w'⟩
    · exact .inr ⟨hw, fault, w', rfl⟩
    · have rooted := unmade.rooted hw hmake
      obtain ⟨g, bears⟩ := rooted.exists_ground
      exact .inl ⟨w'.disk, g, rooted, bears, .inl hw⟩
  · exact .inl made

/-- When all tests have passed, the run root is removed. -/
theorem removeRoot (blank : r.Blank start w.disk) :
    ∃ w', r.removeRoot.run w = (.ok (), w') ∧
      w'.disk.lookAt r.root = .error (.os Errno.noEntry) := by
  rcases blank with rfl | ⟨made, g, rooted, bears, between⟩
  · refine ⟨w, ?_, unmade.absent⟩
    unfold Run.removeRoot
    rw [Action.run_mapError, Tree.remove_of_free unmade.absent]
    rfl
  · apply removeRoot_gone rooted bears
    rcases between with hstart | ⟨ready, -, vacant⟩
    · exact .inr hstart
    · exact .inl ⟨ready, vacant⟩

end Unmade

theorem Between.children (between : Between g start made d) (rooted : r.Rooted start made)
    (bears : r.Bears made g) : d.children r.root = [] := by
  rcases between with rfl | ⟨ready, -, vacant⟩
  · exact rooted.children_start
  · exact children_of_vacant bears ready vacant

/-! ## The test that fails -/

/-- What a test that fails leaves in a run root that was empty. -/
structure Leaves (r : Run) (file : Path) (w : World) (e : RunError) (d : Disk) : Prop where
  gone : e.keepsRoot = false → d.children r.root = []
  kept : e.keepsRoot = true → d.children r.root = [(testName file).toList] ∧
    ∃ home v, d.Names r.root home ∧ r.Breaks file w e v ∧
      ∀ l, l ≠ home ++ [(testName file).toList, LogSink.fileName.toList] → d.get? l = v.disk.get? l

/-- A test that has entered the run root and fails, fails in its set-up or in a command. From then
on nothing changes but its log. -/
theorem breaks_of_toEnd {s : Site} (same : s.SameProgress true r.workers
      (Progress.step r file .waiting w) (Progress.step r file .waiting w))
    (h : Progress.toEnd r file .waiting w = (.error e, w')) :
    ∃ v, r.Breaks file w e v ∧ ∀ l, l ≠ s.log → w'.disk.get? l = v.disk.get? l := by
  have hrun := steps_toEnd r file .waiting w
  rw [h] at hrun
  -- the last step, and what has come before it
  obtain heq | ⟨⟨p, v₀⟩, hbefore, hopen, hlast⟩ := hrun.cases_tail
  · cases heq
  obtain heq | ⟨z, ⟨-, rfl⟩, hafter⟩ := hbefore.cases_head
  · cases heq
    rw [Progress.step_waiting] at hlast
    rcases hsetUp : (r.setUp file).run w with ⟨e' | x, v⟩
    · rw [hsetUp] at hlast
      cases hlast
      exact ⟨w', .setUp hsetUp, fun _ _ => rfl⟩
    · rw [hsetUp] at hlast
      cases hlast
  · obtain ⟨-, hsame⟩ := confined_later same hafter
    cases hsame with
    | finished => cases hopen
    | @running env _ commands _ _ world built valid ready =>
      cases commands with
      | nil =>
        obtain ⟨v, -, hcleanUp, -⟩ := Site.cleanUp world built valid ready
        rw [Progress.step_nil, hcleanUp] at hlast
        cases hlast
      | cons c rest =>
        rw [Progress.step_cons] at hlast
        rcases hperform : (env.perform c).run v₀ with ⟨e' | u, v⟩
        · rw [hperform] at hlast
          cases hlast
          refine ⟨v, .command hbefore hperform, fun l hl => ?_⟩
          exact (Site.off_log_of_write world.env.logs.1 _ v).get? hl
        · rw [hperform] at hlast
          cases hlast

section

variable (registry : r.registry = Verb.standard) (rooted : r.Rooted start made)
  (bears : r.Bears made g)
include registry rooted bears

/-- A test to which the run root is missing or empty: if it passes, the root is empty afterwards,
and if it fails, nothing is in the root but its directory. -/
theorem toEnd_of_between {outcome : Except RunError Unit} (between : Between g start made w.disk)
    (names : r.LocalScript w.disk file)
    (h : Progress.toEnd r file .waiting w = (outcome, w')) :
    (outcome = .ok () → Between g start made w'.disk) ∧
      ∀ e, outcome = .error e → r.Leaves file w e w'.disk := by
  have harrival := arrival registry rooted bears between.course names
  obtain ⟨x, hx⟩ : ∃ x, Progress.step r file .waiting w = x := ⟨_, rfl⟩
  have hend := h
  rw [Progress.toEnd_step rfl, hx] at hend
  rw [hx] at harrival
  cases harrival with
  | @failed e' v left same =>
    rw [Progress.toEnd_finished] at hend
    cases hend
    refine ⟨fun hok => (by cases hok), fun e he => ?_⟩
    cases he
    have between' : Between g start made v.disk := by rwa [same]
    refine ⟨fun _ => between'.children rooted bears, fun keeps => ?_⟩
    rw [left] at keeps
    cases keeps
  | refused isName ready there =>
    refine absurd (between.vacant rooted bears ready _ ?_) there
    exact not_not_intro ⟨List.prefix_append _ _, by simp⟩
  | @entered _ d isName ready alike found free same stays =>
    obtain ⟨outcome', w₁, w₂, hfirst, -, ended, hstays⟩ := same.toEnd r file
    cases hend.symm.trans hfirst
    have stays' : (g.site _ isName).Stays d w'.disk := stays.trans (hstays stays.tree)
    have ready' : g.Ready w'.disk := ready.of_alike stays'.tree stays'.apart
    have vacant : g.Vacant d := by
      rcases found with ⟨hready, rfl⟩ | ⟨-, -, hvacant⟩
      · exact between.vacant rooted bears hready
      · exact hvacant
    cases ended with
    | @kept e error keeps left =>
      refine ⟨fun hok => (by rw [error] at hok; cases hok), fun e' he => ?_⟩
      cases error.symm.trans he
      have there : w'.disk.node? (g.home ++ [(testName file).toList]) ≠ none := by
        rw [show w'.disk.node? (g.home ++ [(testName file).toList]) = _ from left]
        exact Option.some_ne_none _
      refine ⟨fun hgone => (by rw [keeps] at hgone; cases hgone), fun _ => ⟨?_, ?_⟩⟩
      · exact children_of_only bears ready' there fun m hm => vacant.only_root stays' hm
      · subst error
        obtain ⟨v, breaks, hlog⟩ := breaks_of_toEnd (hx ▸ same) h
        refine ⟨g.home, v, bears.path ▸ ready'.names, breaks, fun l hl => hlog l ?_⟩
        rwa [Site.log, Site.root, List.append_assoc]
    | gone keeps left =>
      have between' : Between g start made w'.disk :=
        .inr ⟨ready', alike.trans stays'.apart, vacant.of_gone stays' left⟩
      refine ⟨fun _ => between', fun e he =>
        ⟨fun _ => between'.children rooted bears, fun hkeeps => ?_⟩⟩
      rw [keeps e he] at hkeeps
      cases hkeeps

end

/-- A test fails and leaves nothing if the run root cannot be made. -/
theorem fails_of_unmakeable {fault : IoError} {outcome : Except RunError Unit}
    (unmade : r.Unmade w.disk)
    (hmake : (Tree.makeDirectories r.root Tree.directoryMode).run w = (.error fault, v))
    (h : Progress.toEnd r file .waiting w = (outcome, w')) :
    ∃ e, outcome = .error e ∧ e.keepsRoot = false ∧ w'.disk.children r.root = [] := by
  have hbefore : w.disk.children r.root = [] := by
    apply Disk.children_of_not_isDirectory
    rw [Bool.eq_false_iff]
    intro there
    rw [Tree.makeDirectories_of_isDirectory unmade.tree there] at hmake
    cases hmake
  have hafter : v.disk.children r.root = [] := by
    apply Disk.children_of_not_isDirectory
    have hmissing := Tree.not_isDirectory_of_makeDirectories (unmade.isSound r.root)
      (congrArg Prod.fst hmake)
    rwa [hmake] at hmissing
  have hfailed : ∀ {e : RunError} {v : World}, (r.setUp file).run w = (.error e, v) →
      e.keepsRoot = false → v.disk.children r.root = [] →
      ∃ e, outcome = .error e ∧ e.keepsRoot = false ∧ w'.disk.children r.root = [] := by
    intro e v hsetUp left none
    rw [Progress.toEnd_step rfl, Progress.step_waiting, hsetUp, Progress.toEnd_finished] at h
    cases h
    exact ⟨e, rfl, left, none⟩
  cases hread : w.disk.readText file with
  | error fault => exact hfailed (r.setUp_of_unread hread) rfl hbefore
  | ok text =>
    cases hparse : Script.parse r.registry file.text text with
    | error error => exact hfailed (r.setUp_of_unparsed hread hparse) rfl hbefore
    | ok commands =>
      have hsetUp := r.setUp_of_read hread hparse
      rw [hmake] at hsetUp
      exact hfailed hsetUp rfl hafter

/-! ## The batch -/

section

variable (registry : r.registry = Verb.standard) (unmade : r.Unmade start)
include registry unmade

/-- What one test of the batch comes to. -/
theorem test_of_blank {outcome : Except RunError Unit} (blank : r.Blank start w.disk)
    (names : r.LocalScript w.disk file)
    (h : ((r.test file).withDraws draws).run w = (outcome, w')) :
    (outcome = .ok () → r.Blank start w'.disk) ∧
      ∀ e, outcome = .error e → r.Leaves file ⟨w.toShared, draws⟩ e w'.disk := by
  obtain ⟨⟨x, v⟩, hend⟩ : ∃ y, Progress.toEnd r file .waiting ⟨w.toShared, draws⟩ = y := ⟨_, rfl⟩
  cases (run_test_of_toEnd hend).symm.trans h
  have blank' : r.Blank start (⟨w.toShared, draws⟩ : World).disk := blank
  rcases unmade.cases blank' with ⟨made, g, rooted, bears, between⟩ | ⟨rfl, fault, v', hmake⟩
  · obtain ⟨hpass, hfail⟩ := toEnd_of_between registry rooted bears between names hend
    exact ⟨fun hok => .inr ⟨made, g, rooted, bears, hpass hok⟩, hfail⟩
  · obtain ⟨e, rfl, left, none⟩ := fails_of_unmakeable unmade hmake hend
    refine ⟨fun hok => (by cases hok), fun e' he => ?_⟩
    cases he
    exact ⟨fun _ => none, fun keeps => by rw [left] at keeps; cases keeps⟩

/-- After tests that have passed, the run root is missing or empty. -/
theorem blank_of_passed (passed : r.Passed w before w₁) (blank : r.Blank start w.disk)
    (names : ∀ front file draws rest v, before = front ++ (file, draws) :: rest →
      r.Passed w front v → r.LocalScript v.disk file) : r.Blank start w₁.disk := by
  induction passed with
  | nil => exact blank
  | @cons w w₁ w' file draws rest passes onward ih =>
    have local₁ := names [] file draws rest w rfl .nil
    obtain ⟨hpass, -⟩ := test_of_blank registry unmade blank local₁ passes
    refine ih (hpass rfl) fun front file' draws' rest' v hsplit hfront => ?_
    apply names ((file, draws) :: front) file' draws' rest' v _ (.cons passes hfront)
    rw [hsplit, List.cons_append]

end

/-- Either all tests pass in order, or one is the first that fails. -/
theorem passed_or_fails (r : Run) (tests : List (Path × Draws)) (w : World) :
    (∃ w', r.Passed w tests w') ∨ ∃ before file draws after w₁ e w',
      tests = before ++ (file, draws) :: after ∧ r.Passed w before w₁ ∧
        ((r.test file).withDraws draws).run w₁ = (.error e, w') := by
  induction tests generalizing w with
  | nil => exact .inl ⟨w, .nil⟩
  | cons test rest ih =>
    obtain ⟨file, draws⟩ := test
    rcases hrun : ((r.test file).withDraws draws).run w with ⟨e | u, w₁⟩
    · exact .inr ⟨[], file, draws, rest, w, e, w₁, rfl, .nil, hrun⟩
    · rcases ih w₁ with ⟨w', passed⟩ | ⟨before, file', draws', after, v, e, w', rfl, passed, fails⟩
      · exact .inl ⟨w', .cons hrun passed⟩
      · exact .inr ⟨(file, draws) :: before, file', draws', after, v, e, w', rfl,
          .cons hrun passed, fails⟩

/-- A set-up in which the directory of the test can be made, but the path of a side is too long. -/
theorem setUp_of_long_side (read : w.disk.readText file = .ok text)
    (parse : Script.parse r.registry file.text text = .ok commands)
    (root : (Tree.makeDirectories r.root Tree.directoryMode).run w = (.ok (), w₁))
    (make : w₁.disk.makeDirectory (Action.time w₁) (r.root.join ⟨testName file⟩)
      Tree.directoryMode = .ok d)
    (side : ((r.root.join ⟨testName file⟩).join ⟨Side.lhs.name⟩).hasNul = false)
    (long : pathLimit ≤
      Text.byteLength ((r.root.join ⟨testName file⟩).join ⟨Side.lhs.name⟩).text.toList) :
    ∃ w', (r.setUp file).run w =
      (.error (.environment (testName file) "LHS" (.os Errno.nameTooLong)), w') ∧ w'.disk = d := by
  generalize hlhs : (r.root.join ⟨testName file⟩).join ⟨Side.lhs.name⟩ = lhs at side long
  have hempty : lhs.text.isEmpty = false := by
    rw [Bool.eq_false_iff]
    intro h
    rw [String.isEmpty_iff.1 h] at long
    exact absurd long (by decide)
  have htarget : ∀ last, d.target last lhs = .error (.os Errno.nameTooLong) := by
    intro last
    rw [Disk.target_eq, side, hempty, if_pos long]
    rfl
  have hmake : d.makeDirectory (Action.time (Action.tick w₁)) lhs Tree.directoryMode =
      .error (.os Errno.nameTooLong) := by
    unfold Disk.makeDirectory
    rw [htarget]
    rfl
  have hmissing : d.isDirectory lhs = false := by
    unfold Disk.isDirectory Disk.find
    rw [Bool.true_or, if_pos rfl, htarget]
    rfl
  let v : World := { Action.tick w₁ with disk := d }
  have hside : (Tree.makeDirectories lhs Tree.directoryMode).run v =
      (if d.isDirectory lhs then .ok () else .error (.os Errno.nameTooLong), Action.tick v) :=
    Tree.makeDirectories_of_fault hempty hmake (by decide)
  rw [hmissing, if_neg Bool.false_ne_true] at hside
  have hsetUp := r.setUp_of_read read parse
  rw [root] at hsetUp
  refine ⟨Action.tick v, hsetUp.trans ?_, rfl⟩
  show (r.enter (testName file) commands).run w₁ = _
  unfold enter Environment.furnish Environment.build.part
  simp only
  rw [Action.run_bind, Action.run_bind, Action.run_mapError, Action.run_change, make]
  simp only [Except.mapError]
  rw [Action.run_bind, Action.run_mapError, hlhs, hside]
  rfl

theorem batch_fails_at_long_side (read : w.disk.readText file = .ok text)
    (parse : Script.parse r.registry file.text text = .ok commands)
    (root : (Tree.makeDirectories r.root Tree.directoryMode).run w = (.ok (), w₁))
    (make : w₁.disk.makeDirectory (Action.time w₁) (r.root.join ⟨testName file⟩)
      Tree.directoryMode = .ok d)
    (side : ((r.root.join ⟨testName file⟩).join ⟨Side.lhs.name⟩).hasNul = false)
    (long : pathLimit ≤
      Text.byteLength ((r.root.join ⟨testName file⟩).join ⟨Side.lhs.name⟩).text.toList) :
    ∃ w', (r.tests false ((file, w.toDraws) :: after)).run w =
      (.error (.environment (testName file) "LHS" (.os Errno.nameTooLong)), w') ∧ w'.disk = d := by
  obtain ⟨v, hsetUp, hdisk⟩ := setUp_of_long_side read parse root make side long
  refine ⟨⟨v.toShared, w.toDraws⟩, tests_of_failure .nil (run_test_of_toEnd ?_), hdisk⟩
  rw [Progress.toEnd_step rfl, Progress.step_waiting, hsetUp]
  exact Progress.toEnd_finished

/-- A test has failed in its set-up, once its script was read. -/
def failsInSetUp : Except RunError Unit → Bool
  | .error (.environment ..) => true
  | _ => false

/-- A test has failed in a command. -/
def failsInCommand : Except RunError Unit → Bool
  | .error (.command ..) => true
  | _ => false

/-- What a batch comes to whose first test is found to fail after so many steps. -/
theorem batch_fails_of_steps (k : Nat) (check : Except RunError Unit → Bool)
    (fails : check (.ok ()) = false)
    (steps : (r.stepped file draws k w).1.outcome?.any check = true) :
    ∃ e, check (.error e) = true ∧
      (r.tests false ((file, draws) :: after)).run w =
        (.error e, r.steppedWorld file draws k w) := by
  obtain ⟨outcome, isOver, hcheck⟩ := (Option.any_eq_true _ _).1 steps
  cases outcome with
  | ok u => rw [show check (.ok u) = false from fails] at hcheck; cases hcheck
  | error e => exact ⟨e, hcheck, tests_of_failure .nil (run_test_of_steps k isOver)⟩

/-- A batch without tests fails where nothing can be found, not even that the run root is missing.
A set-up that finds the path of a side too long leaves the directory of the test. And a test that
fails in a command is not alone in a run root that was made along a path through it, nor in one that
climbs, to which a link can lead. -/
theorem run_root_holds_more :
    let entry : Node → Entry := fun node => ⟨node, 0o755, ⟨0, 0⟩, ⟨0, 0⟩⟩
    let draws : Draws := ⟨.seeded 0, fun _ => ⟨0, 0⟩, 0⟩
    let test : List (Path × Draws) := [(⟨"/a.t"⟩, draws)]
    (let d : Disk := ⟨[([], entry .directory), (["tmp".toList], entry (.file 0 #[]))], 1, []⟩
      let r : Run :=
      { root := ⟨"/tmp/run"⟩, registry := Verb.standard, target := .console, workers := 1 }
      let w : World := ⟨⟨d, []⟩, draws⟩
      d.isDirectory r.root = false ∧ ((r.tests false []).run w).1 ≠ .ok ()) ∧
    (let d : Disk := ⟨[([], entry .directory), (["a.t".toList], entry (.file 0 #[]))], 1, []⟩
      let r : Run :=
      { root := .pad 4086 ⟨"/r"⟩, registry := Verb.standard, target := .console, workers := 1 }
      let w : World := ⟨⟨d, []⟩, draws⟩
      d.isDirectory r.root = false ∧ ∃ e w', failsInSetUp (.error e) = true ∧
        (r.tests false test).run w = (.error e, w') ∧ w'.disk.children r.root = ["a.t".toList]) ∧
    (let d : Disk := ⟨[([], entry .directory),
        (["a.t".toList], entry (.file 0 "rm lhs=ghost\n".toUTF8.data))], 1, []⟩
      let r : Run :=
      { root := ⟨"/run/sub/../../run"⟩, registry := Verb.standard, target := .console, workers := 1 }
      let w : World := ⟨⟨d, []⟩, draws⟩
      d.isDirectory r.root = false ∧ ∃ e w', failsInCommand (.error e) = true ∧
        (r.tests false test).run w = (.error e, w') ∧
        w'.disk.children r.root = ["a.t".toList, "sub".toList]) ∧
    (let d : Disk := ⟨[([], entry .directory), (["x".toList], entry .directory),
        (["x".toList, "y".toList], entry .directory),
        (["x".toList, "y".toList, "z".toList], entry .directory), (["c".toList], entry .directory),
        (["c".toList, "c".toList], entry .directory),
        (["c".toList, "c".toList, "run".toList], entry .directory),
        (["c".toList, "c".toList, "run".toList, "a.t".toList], entry .directory),
        (["c".toList, "c".toList, "run".toList, "a.t".toList, "lhs".toList], entry .directory),
        (["c".toList, "c".toList, "run".toList, "a.t".toList, "lhs".toList, "f".toList],
          entry (.symlink ⟨"/c/run"⟩)),
        (["a.t".toList],
          entry (.file 0 "symlink lhs=l@f\nmkfile -d l/g\nrm lhs=ghost\n".toUTF8.data))], 1,
        ["x".toList, "y".toList, "z".toList]⟩
      let r : Run :=
      { root := ⟨"../../../c/run"⟩, registry := Verb.standard, target := .console, workers := 1 }
      let w : World := ⟨⟨d, []⟩, draws⟩
      d.isDirectory r.root = false ∧ ∃ e w', failsInCommand (.error e) = true ∧
        (r.tests false test).run w = (.error e, w') ∧
        w'.disk.children r.root = ["g".toList, "a.t".toList]) := by
  intro entry draws test
  refine ⟨?_, ?_, ?_, ?_⟩
  · intro d r w
    have hfails : d.isDirectory r.root = false ∧
        ((r.tests false []).run w).1.toOption.isNone = true := by decide +kernel
    refine ⟨hfails.1, fun hok => ?_⟩
    rw [hok] at hfails
    cases hfails.2
  · intro d r w
    have hroot : ∀ (d : Disk) (t : Time), d.makeDirectory t r.root Tree.directoryMode =
        d.makeDirectory t ⟨"/r"⟩ Tree.directoryMode :=
      fun d t => Disk.makeDirectory_pad (by decide) (by decide)
    have hdirectory : (r.root.join ⟨"a.t"⟩) = .pad 4086 ⟨"/r/a.t"⟩ :=
      Path.pad_join (by decide) (by decide)
    have hside : ((r.root.join ⟨"a.t"⟩).join ⟨"lhs"⟩) = .pad 4086 ⟨"/r/a.t/lhs"⟩ := by
      rw [hdirectory]
      exact Path.pad_join (by decide) (by decide)
    have hmade : ((d.makeDirectory ⟨0, 0⟩ ⟨"/r"⟩ Tree.directoryMode).bind fun d₁ =>
        (d₁.makeDirectory ⟨0, 0⟩ ⟨"/r/a.t"⟩ Tree.directoryMode).bind fun d₂ =>
          .ok (d₂.children ⟨"/r"⟩)).toOption = some ["a.t".toList] := by decide +kernel
    cases h₁ : d.makeDirectory ⟨0, 0⟩ ⟨"/r"⟩ Tree.directoryMode with
    | error fault =>
      rw [h₁] at hmade
      cases hmade
    | ok d₁ =>
      cases h₂ : d₁.makeDirectory ⟨0, 0⟩ ⟨"/r/a.t"⟩ Tree.directoryMode with
      | error fault =>
        rw [h₁, Except.bind, h₂] at hmade
        cases hmade
      | ok d₂ =>
        rw [h₁, Except.bind, h₂] at hmade
        have hchildren : d₂.children ⟨"/r"⟩ = ["a.t".toList] := Option.some.inj hmade
        have hname : testName ⟨"/a.t"⟩ = "a.t" := by decide +kernel
        have hread : w.disk.readText ⟨"/a.t"⟩ = .ok "" := eq_ok_of_toOption (by decide +kernel)
        have hmakes : (Tree.makeDirectories r.root Tree.directoryMode).run w =
            (.ok (), { Action.tick w with disk := d₁ }) :=
          Tree.makeDirectories_of_made (Path.isEmpty_pad (by decide)) ((hroot d _).trans h₁)
        have hmakesOwn : d₁.makeDirectory ⟨0, 0⟩ (r.root.join ⟨testName ⟨"/a.t"⟩⟩)
            Tree.directoryMode = .ok d₂ := by
          rw [hname, hdirectory, Disk.makeDirectory_pad (by decide) (by decide), h₂]
        have hlhs : (r.root.join ⟨testName ⟨"/a.t"⟩⟩).join ⟨Side.lhs.name⟩ =
            .pad 4086 ⟨"/r/a.t/lhs"⟩ := by
          rw [hname]
          exact hside
        obtain ⟨v, hrun, hdisk⟩ := batch_fails_at_long_side hread rfl hmakes hmakesOwn
          (by rw [hlhs, Path.hasNul_pad]; decide) (by rw [hlhs, Path.byteLength_pad]; decide)
        refine ⟨?_, _, _, rfl, hrun, ?_⟩
        · rw [show r.root = .pad 4086 ⟨"/r"⟩ from rfl, Disk.isDirectory_pad (by decide) (by decide)]
          decide +kernel
        · have hlist : d₂.list r.root = d₂.list ⟨"/r"⟩ := Disk.list_pad (by decide) (by decide)
          rw [hdisk, Disk.children, hlist]
          exact hchildren
  · intro d r w
    have hcheck : (d.isDirectory r.root = false ∧
        (r.stepped ⟨"/a.t"⟩ draws 2 w).1.outcome?.any failsInCommand = true) ∧
        (r.steppedWorld ⟨"/a.t"⟩ draws 2 w).disk.children r.root =
          ["a.t".toList, "sub".toList] := by
      decide +kernel
    obtain ⟨e, he, hrun⟩ := batch_fails_of_steps 2 failsInCommand rfl hcheck.1.2
    exact ⟨hcheck.1.1, e, _, he, hrun, hcheck.2⟩
  · intro d r w
    have hcheck : (d.isDirectory r.root = false ∧
        (r.stepped ⟨"/a.t"⟩ draws 4 w).1.outcome?.any failsInCommand = true) ∧
        (r.steppedWorld ⟨"/a.t"⟩ draws 4 w).disk.children r.root =
          ["g".toList, "a.t".toList] := by
      decide +kernel
    obtain ⟨e, he, hrun⟩ := batch_fails_of_steps 4 failsInCommand rfl hcheck.1.2
    exact ⟨hcheck.1.1, e, _, he, hrun, hcheck.2⟩

/-- A batch in order, with no run root at first and with scripts that have local names only when
they are read. If its tests pass, the batch does, and there is no run root afterwards. If not, it
ends when its first failing test does, with the error of that test, whatever tests there are after
it. If this test had a directory, it is then the only child of the run root, as the failure has left
it but for the log. -/
theorem batch_ends_at_failure (registry : r.registry = Verb.standard) (unmade : r.Unmade w.disk)
    (names : ∀ before file draws after w₁, tests = before ++ (file, draws) :: after →
      r.Passed w before w₁ → r.LocalScript w₁.disk file) :
    ((∃ w₁, r.Passed w tests w₁) ∧ ∃ w', (r.tests false tests).run w = (.ok (), w') ∧
      w'.disk.lookAt r.root = .error (.os Errno.noEntry)) ∨
    ∃ before file draws after w₁ e w', tests = before ++ (file, draws) :: after ∧
      r.Passed w before w₁ ∧ ((r.test file).withDraws draws).run w₁ = (.error e, w') ∧
      (∀ rest, (r.tests false (before ++ (file, draws) :: rest)).run w = (.error e, w')) ∧
      r.Leaves file ⟨w₁.toShared, draws⟩ e w'.disk := by
  rcases passed_or_fails r tests w with ⟨w₁, passed⟩ |
    ⟨before, file, draws, after, w₁, e, w', rfl, passed, fails⟩
  · have blank := blank_of_passed registry unmade passed (.inl rfl) names
    obtain ⟨w', hremove, gone⟩ := unmade.removeRoot blank
    refine .inl ⟨⟨w₁, passed⟩, w', ?_, gone⟩
    have horder : (r.inOrder (tests ++ [])).run w = (.ok (), w₁) := inOrder_of_passed passed
    rw [List.append_nil] at horder
    have htests : r.tests false tests = (do r.inOrder tests; r.removeRoot) := rfl
    rw [htests, Action.run_bind, horder]
    exact hremove
  · have blank : r.Blank w.disk w₁.disk := by
      apply blank_of_passed registry unmade passed (.inl rfl)
      intro front file' draws' rest v hsplit
      apply names front file' draws' (rest ++ (file, draws) :: after) v
      rw [hsplit, List.append_assoc, List.cons_append]
    have local₁ := names before file draws after w₁ rfl passed
    obtain ⟨-, hfail⟩ := test_of_blank registry unmade blank local₁ fails
    exact .inr ⟨before, file, draws, after, w₁, e, w', rfl, passed, fails,
      fun _ => tests_of_failure passed fails, hfail e rfl⟩

/-- Three tests of one name: the first passes, the second fails in its second command, and the third
could not be read. -/
theorem second_test_ends_batch :
    let entry : Node → Entry := fun node => ⟨node, 0o755, ⟨0, 0⟩, ⟨0, 0⟩⟩
    let draws : Draws := ⟨.seeded 0, fun _ => ⟨0, 0⟩, 0⟩
    let d : Disk := ⟨[([], entry .directory), (["a".toList], entry .directory),
      (["b".toList], entry .directory),
      (["a".toList, "x.t".toList], entry (.file 0 "mkfile -d k\n".toUTF8.data)),
      (["b".toList, "x.t".toList],
        entry (.file 1 "mkfile -d k\nrm lhs=ghost\n".toUTF8.data))], 2, []⟩
    let r : Run :=
      { root := ⟨"/new/run"⟩, registry := Verb.standard, target := .console, workers := 1 }
    let w : World := ⟨⟨d, []⟩, draws⟩
    let tests : List (Path × Draws) :=
      [(⟨"/a/x.t"⟩, draws), (⟨"/b/x.t"⟩, draws), (⟨"/c/x.t"⟩, draws)]
    ∃ e w', (r.tests false tests).run w = (.error e, w') ∧
      w'.disk.children r.root = ["x.t".toList] := by
  intro entry draws d r w tests
  have rooted : r.Rooted w.disk ((Tree.makeDirectories r.root Tree.directoryMode).run w).2.disk :=
    .of_makes r w ⟨"/new"⟩ "run" (by decide) ⟨by decide, by decide, by decide⟩
      (by decide) (.of_entries (by decide) rfl (by decide)) rfl (by decide +kernel)
      (by decide +kernel)
  have unmade : r.Unmade w.disk := rooted.unmade (by decide +kernel)
  let w₁ := r.steppedWorld ⟨"/a/x.t"⟩ draws 3 w
  have hcheck : ((r.stepped ⟨"/a/x.t"⟩ draws 3 w).1.outcome?.any
        (fun outcome => outcome.toOption == some ()) = true ∧
      (r.stepped ⟨"/b/x.t"⟩ draws 3 w₁).1.outcome?.any
        (fun outcome => (Progress.finished outcome).holds) = true) ∧
      (w₁.disk.readText ⟨"/b/x.t"⟩).toOption = some "mkfile -d k\nrm lhs=ghost\n" := by
    decide +kernel
  obtain ⟨⟨hpass, hfail⟩, hread₁⟩ := hcheck
  have hpass := passes_of_steps 3 hpass
  obtain ⟨e₁, keeps, hfail⟩ := fails_of_steps 3 hfail
  have hends : (r.tests false tests).run w = (.error e₁, _) :=
    tests_of_failure (.cons hpass .nil) hfail
  have names : ∀ before file draws after v, tests = before ++ (file, draws) :: after →
      r.Passed w before v → r.LocalScript v.disk file := by
    have hread : w.disk.readText ⟨"/a/x.t"⟩ = .ok "mkfile -d k\n" :=
      eq_ok_of_toOption (by decide +kernel)
    have hparse : Script.parse r.registry "/a/x.t" "mkfile -d k\n" =
        .ok [⟨⟨"mkfile", Verb.make⟩, "mkfile", ["-d", "k"], 1⟩] := by rfl
    have hparse₁ : Script.parse r.registry "/b/x.t" "mkfile -d k\nrm lhs=ghost\n" =
        .ok [⟨⟨"mkfile", Verb.make⟩, "mkfile", ["-d", "k"], 1⟩,
          ⟨⟨"rm", Verb.remove⟩, "rm", ["lhs=ghost"], 2⟩] := by rfl
    intro before file draws' after v hsplit passed
    change ([(⟨"/a/x.t"⟩, draws), (⟨"/b/x.t"⟩, draws), (⟨"/c/x.t"⟩, draws)] :
      List (Path × Draws)) = _ at hsplit
    cases passed with
    | nil =>
      cases hsplit
      exact localScript_of_read hread hparse (localCommands_of_noDollar (by decide) (by decide))
    | cons passes onward =>
      cases onward with
      | nil =>
        cases hsplit
        cases hpass.symm.trans passes
        exact localScript_of_read (eq_ok_of_toOption hread₁) hparse₁
          (localCommands_of_noDollar (by decide) (by decide))
      | cons passes' onward =>
        obtain ⟨hfirst, hrest⟩ := List.cons.inj hsplit
        obtain ⟨hsecond, -⟩ := List.cons.inj hrest
        cases hfirst
        cases hpass.symm.trans passes
        cases hsecond
        cases hfail.symm.trans passes'
  rcases batch_ends_at_failure rfl unmade names with ⟨-, w', hok, -⟩ |
    ⟨before, file, draws', after, v, e, w', hsplit, -, -, hrun, leaves⟩
  · cases hends.symm.trans hok
  · have hrun := hrun after
    rw [← hsplit] at hrun
    cases hends.symm.trans hrun
    obtain ⟨hchildren, -⟩ := leaves.kept keeps
    have hname : ∀ test ∈ tests, testName test.1 = "x.t" := by decide +kernel
    rw [hname (file, draws') (by rw [hsplit]; simp)] at hchildren
    exact ⟨_, _, hends, hchildren⟩

end TwinTrees.Run
