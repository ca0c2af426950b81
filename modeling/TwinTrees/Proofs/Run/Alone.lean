import TwinTrees.Proofs.Run.Reading
import TwinTrees.Proofs.Run.Root
import TwinTrees.Proofs.Site.Beside

/-!
# A test in a run and the same test alone

The first step of a test in a run compares with that of the same test alone in an empty run root.
Either it ends before it makes anything and the test fails with the same error alone; or another
test has a directory of the same name, and the test is refused; or the test has entered the run root
and looks the same from then on (`first_step`). What a test comes to alone does not depend on the
clock (`alone_congr`).
-/

namespace TwinTrees

/-- The draws with the clock read so many times more. -/
def Draws.after (draws : Draws) (k : Nat) : Draws where
  source := draws.source
  clock := ⟨draws.clock.reading, draws.clock.position + k⟩

namespace Run

variable {r : Run} {start made : Disk} {file : Path} {g : Ground} {times : Bool} {w : World}
  {draws : Draws}

/-- What a test comes to alone in an empty run root. -/
def alone (r : Run) (made : Disk) (file : Path) (draws : Draws) : Except RunError Unit × World :=
  (r.test file).run ⟨⟨made, []⟩, draws⟩

/-- The failure of a test whose directory cannot be made since one of that name is there. -/
def refusal (file : Path) : RunError :=
  .environment (testName file) "test root" (.os Errno.alreadyExists)

/-- What has become of a test after its first step in the world `w` of a run, compared with the same
test alone. -/
inductive First (r : Run) (g : Ground) (start made : Disk) (times : Bool) (file : Path) (w : World)
    (draws : Draws) : Progress × World → Prop
  | failed {e : RunError} {w' : World} (alone : (r.alone made file draws).1 = .error e)
      (left : e.keepsRoot = false) (same : w'.disk = w.disk) :
      First r g start made times file w draws (.finished (.error e), w')
  | refused {w' : World} (ready : g.Ready w.disk)
      (there : w.disk.node? (g.home ++ [(testName file).toList]) ≠ none)
      (same : w'.disk = w.disk) :
      First r g start made times file w draws (.finished (.error (refusal file)), w')
  | entered {x : Progress × World} {d : Disk} (isName : IsName (testName file).toList)
      (ready : g.Ready d) (alike : Disk.Alike false g.Apart made d)
      (found : g.Ready w.disk ∧ d = w.disk ∨ ¬ g.Ready w.disk ∧ w.disk = start ∧ g.Vacant d)
      (free : d.node? (g.home ++ [(testName file).toList]) = none)
      (same : (g.site _ isName).SameProgress times r.workers x
        (Progress.step r file .waiting ⟨⟨made, []⟩, draws⟩))
      (stays : (g.site _ isName).Stays d x.2.disk) :
      First r g start made times file w draws x

/-- A test with its own draws comes to what its steps come to. -/
theorem run_test_of_toEnd {outcome : Except RunError Unit} {v : World}
    (h : Progress.toEnd r file .waiting ⟨w.toShared, draws⟩ = (outcome, v)) :
    ((r.test file).withDraws draws).run w = (outcome, ⟨v.toShared, w.toDraws⟩) := by
  show (let (x, w') := Progress.toEnd r file .waiting ⟨w.toShared, draws⟩;
    (x, (⟨w'.toShared, w.toDraws⟩ : World))) = _
  rw [h]

theorem alone_of_error {e : RunError} {w' : World}
    (h : (r.setUp file).run ⟨⟨made, []⟩, draws⟩ = (.error e, w')) :
    (r.alone made file draws).1 = .error e := by
  have hstep : Progress.step r file .waiting ⟨⟨made, []⟩, draws⟩ = _ := Progress.step_waiting
  rw [h] at hstep
  show (Progress.toEnd r file .waiting ⟨⟨made, []⟩, draws⟩).1 = .error e
  rw [Progress.toEnd_step rfl, hstep, Progress.toEnd_finished]

/-- What a test comes to alone can be found by taking its steps. -/
theorem alone_checked (r : Run) (made : Disk) (file : Path) (draws : Draws)
    (check : Except RunError Unit → Bool) (n : Nat)
    (steps : (Progress.steps r file n (.waiting, ⟨⟨made, []⟩, draws⟩)).1.outcome?.any check = true) :
    check (r.alone made file draws).1 = true := by
  obtain ⟨outcome, hover, hcheck⟩ := (Option.any_eq_true _ _).1 steps
  have hend := Progress.toEnd_of_steps n _ hover
  show check (Progress.toEnd r file .waiting ⟨⟨made, []⟩, draws⟩).1 = true
  rw [hend]
  exact hcheck

/-- The test alone finds its run root. -/
theorem makeDirectories_alone (h : r.Rooted start made) (bears : r.Bears made g) (draws : Draws) :
    (Tree.makeDirectories r.root Tree.directoryMode).run ⟨⟨made, []⟩, draws⟩ =
      (.ok (), Action.tick ⟨⟨made, []⟩, draws⟩) :=
  Tree.makeDirectories_of_isDirectory h.isTree_made (bears.path ▸ bears.ready.isDirectory)

section

variable {text : String} {commands : List (Script.Command Verb)} {w₁ : World} {k : Nat}
  (registry : r.registry = Verb.standard) (h : r.Rooted start made) (bears : r.Bears made g)
  (hmade : made.readText file = .ok text) (hread : w.disk.readText file = .ok text)
  (hparse : Script.parse r.registry file.text text = .ok commands)
  (hmake : (Tree.makeDirectories r.root Tree.directoryMode).run w = (.ok (), w₁))
  (rooting : Rooting g start made w w₁ k) (isName : IsName (testName file).toList)
include h bears hmade hread hparse hmake rooting

include registry in
theorem first_of_free (names : r.LocalCommands file commands) (source : draws.source = w.source)
    (clock : times = true → draws.clock = ⟨w.clock.reading, w.clock.position + k⟩)
    (free : w₁.disk.node? (g.site _ isName).root = none) :
    First r g start made times file w draws (Progress.step r file .waiting w) := by
  have hosts : (g.site _ isName).Hosts r file := ⟨bears.path, String.ofList_toList⟩
  have hvacant : ∀ l, (g.site _ isName).Below l → made.node? l = none := fun l hl =>
    bears.vacant l (Ground.not_apart hl)
  have hbegun := Site.Begun.ofReady (rooting.ready _ isName) free
  have stage : (g.site _ isName).Stage times w₁.disk made [] w₁
      (Action.tick ⟨⟨made, []⟩, draws⟩) := {
    left := hbegun
    right := .ofReady (bears.ready _ isName) (hvacant _ List.prefix_rfl)
    below := .of_none (fun l hl => by rw [hbegun.made l hl]; rfl) hvacant
      rooting.alike.workingDirectory.symm
    apart := rooting.alike.symm
    source := rooting.source.trans source.symm
    clock := fun ht => by rw [rooting.clock, Action.tick, clock ht] }
  have hreadAlone : (⟨⟨made, []⟩, draws⟩ : World).disk.readText file = .ok text := hmade
  obtain ⟨hsame, hstays, -⟩ := Site.sameProgress_of_setUp _ hosts registry hread hreadAlone hparse
    names hmake (makeDirectories_alone h bears draws)
    ⟨rooting.ready _ isName, bears.ready _ isName⟩ stage
  exact .entered isName rooting.ready rooting.alike
    (rooting.found.imp (fun h => ⟨h.1, h.2.1⟩) id) free hsame hstays

theorem first_of_there (there : w₁.disk.node? (g.site _ isName).root ≠ none) :
    First r g start made times file w draws (Progress.step r file .waiting w) := by
  have hosts : (g.site _ isName).Hosts r file := ⟨bears.path, String.ofList_toList⟩
  obtain ⟨ready, hdisk, -⟩ | ⟨-, -, hvacant⟩ := rooting.found
  · have henter := Site.enter_there hosts.root (rooting.ready _ isName) there commands
    have hsetUp := r.setUp_of_read hread hparse
    rw [hmake, ← hosts.name] at hsetUp
    rw [Progress.step_waiting, hsetUp]
    simp only
    rw [henter]
    cases hfault : (g.site _ isName).fault?
        ((g.site _ isName).runRoot.join ⟨String.ofList (g.site _ isName).name⟩) with
    | none =>
      rw [Option.getD_none, hosts.name]
      exact .refused ready (hdisk ▸ there) hdisk
    | some fault =>
      -- the directory cannot be made alone either
      refine .failed ?_ rfl hdisk
      have hnever := (g.site _ isName).places_root.makeDirectory_of_fault
        (bears.ready _ isName).found (Action.time (Action.tick ⟨⟨made, []⟩, draws⟩))
        Tree.directoryMode hfault
      rw [hosts.root, hosts.name] at hnever
      have hsetUpAlone := r.setUp_of_read (w := ⟨⟨made, []⟩, draws⟩) hmade hparse
      rw [makeDirectories_alone h bears] at hsetUpAlone
      have henterAlone := r.enter_of_error (w := Action.tick ⟨⟨made, []⟩, draws⟩) commands hnever
      rw [hosts.name]
      exact alone_of_error (hsetUpAlone.trans henterAlone)
  · exact absurd (hvacant _ (Ground.not_apart List.prefix_rfl)) there

end

/-- The first step of a test in a run (see the module docstring). The draws are those of the test
alone: the same source, and if the times count, the clock that the test has when the run root is
there. -/
theorem first_step (registry : r.registry = Verb.standard) (h : r.Rooted start made)
    (bears : r.Bears made g) (plain : r.Plain start made file)
    (course : Course g start made w.disk) :
    ∃ k, (g.Ready w.disk → k = 0) ∧ ∀ times draws, draws.source = w.source →
      (times = true → draws.clock = ⟨w.clock.reading, w.clock.position + k⟩) →
      First r g start made times file w draws (Progress.step r file .waiting w) := by
  have hread := plain.steady.read bears course
  have hfailed : ∀ {e : RunError}, e.keepsRoot = false → (r.setUp file).run w = (.error e, w) →
      (∀ draws : Draws, ∃ w', (r.setUp file).run ⟨⟨made, []⟩, draws⟩ = (.error e, w')) →
      ∃ k, (g.Ready w.disk → k = 0) ∧ ∀ times draws, draws.source = w.source →
        (times = true → draws.clock = ⟨w.clock.reading, w.clock.position + k⟩) →
        First r g start made times file w draws (Progress.step r file .waiting w) := by
    intro e hleft hsetUp halone
    refine ⟨0, fun _ => rfl, fun times draws _ _ => ?_⟩
    rw [Progress.step_waiting, hsetUp]
    obtain ⟨w', hw'⟩ := halone draws
    exact .failed (alone_of_error hw') hleft rfl
  cases hmade : made.readText file with
  | error fault =>
    rw [hmade] at hread
    exact hfailed rfl (r.setUp_of_unread hread) fun draws => ⟨_, r.setUp_of_unread hmade⟩
  | ok text =>
    rw [hmade] at hread
    cases hparse : Script.parse r.registry file.text text with
    | error error =>
      exact hfailed rfl (r.setUp_of_unparsed hread hparse) fun draws =>
        ⟨_, r.setUp_of_unparsed hmade hparse⟩
    | ok commands =>
      obtain ⟨w₁, k, hmake, rooting⟩ := makeRoot h bears course
      have isName := isName_of_readText (h.isSound_made file) hmade
      refine ⟨k, fun ready => ?_, fun times draws source clock => ?_⟩
      · obtain ⟨-, -, hk⟩ | ⟨hnot, -⟩ := rooting.found
        · exact hk
        · exact absurd ready hnot
      · by_cases free : w₁.disk.node? (g.site _ isName).root = none
        · exact first_of_free registry h bears hmade hread hparse hmake rooting isName
            (plain.names_made text commands hmade hparse) source clock free
        · exact first_of_there h bears hmade hread hparse hmake rooting isName free

/-- A test that goes on by itself comes to what it comes to alone, and if it passes, it leaves the run
root empty again. -/
theorem First.toEnd {x : Progress × World} (first : First r g start made times file w draws x)
    (vacant : g.Ready w.disk → g.Vacant w.disk) :
    ∃ w', x.1.toEnd r file x.2 = ((r.alone made file draws).1, w') ∧
      ((r.alone made file draws).1 = .ok () →
        g.Ready w'.disk ∧ Disk.Alike false g.Apart made w'.disk ∧ g.Vacant w'.disk) := by
  cases first with
  | failed alone =>
    rw [alone]
    exact ⟨_, Progress.toEnd_finished, nofun⟩
  | refused ready there =>
    refine absurd (vacant ready _ (not_not_intro ⟨List.prefix_append _ _, ?_⟩)) there
    simp
  | @entered _ d isName ready alike found free same stays =>
    obtain ⟨outcome, w₁, w₂, h₁, h₂, ended, hstays⟩ := same.toEnd r file
    have halone : (r.alone made file draws).1 = outcome := by
      show (Progress.toEnd r file .waiting ⟨⟨made, []⟩, draws⟩).1 = outcome
      rw [Progress.toEnd_step rfl, h₂]
    rw [halone]
    refine ⟨w₁, h₁, fun hok => ?_⟩
    have hstays := stays.trans (hstays stays.tree)
    have hd : g.Vacant d := by
      obtain ⟨hready, rfl⟩ | ⟨-, -, hvacant⟩ := found
      · exact vacant hready
      · exact hvacant
    refine ⟨ready.of_alike hstays.tree hstays.apart, alike.trans hstays.apart, ?_⟩
    cases ended with
    | kept error => rw [hok] at error; cases error
    | gone keeps left => exact hd.of_gone hstays left

/-- What a test comes to alone does not depend on the clock. -/
theorem alone_congr (registry : r.registry = Verb.standard) (h : r.Rooted start made)
    (bears : r.Bears made g) (plain : r.Plain start made file)
    {draws₁ draws₂ : Draws} (source : draws₁.source = draws₂.source) :
    (r.alone made file draws₁).1 = (r.alone made file draws₂).1 := by
  obtain ⟨k, -, first⟩ := first_step (w := ⟨⟨made, []⟩, draws₁⟩) registry h bears plain
    (.rooted bears.ready (.refl made))
  obtain ⟨w', hend, -⟩ := (first false draws₂ source.symm nofun).toEnd fun _ => bears.vacant
  show (Progress.toEnd r file .waiting ⟨⟨made, []⟩, draws₁⟩).1 = _
  rw [Progress.toEnd_step rfl, hend]

end Run

end TwinTrees
