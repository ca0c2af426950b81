import TwinTrees.Proofs.Run.Sharing

/-!
# Tests do not depend on the schedule

A test that comes back from a batch has the outcome that it has alone, unless another test has the
same name; and at the end of the batch the run root has the directories of the tests that failed in
them, as they are alone.
-/

namespace TwinTrees.Run

variable {r : Run} {start made : Disk} {g : Ground} {tests : List (Path × Draws)}
  {maker i worker workers : Nat} {jobs : Nat → Option TestJob} {shared : Shared} {draws : Draws}
  {job : TestJob} {outcome : Except RunError Unit} {file : Path} {e : RunError}
  {p : Pool (Path × Draws) TestJob Shared RunError} {h : Pool.History RunError}

/-- The test with a number has the outcome that it has alone, or it was refused for a name that
another test has. -/
def Comes (r : Run) (made : Disk) (tests : List (Path × Draws)) (i : Nat) (test : Path × Draws)
    (outcome : Except RunError Unit) : Prop :=
  outcome = (r.alone made test.1 test.2).1 ∨
    Crowded tests i ∧ outcome = .error (refusal test.1)

/-- The directory of a test has the same sides and the same log on the disk as after the test alone,
which has begun with the clock read so many times before. -/
def Kept (r : Run) (made d : Disk) (test : Path × Draws) (k : Nat) : Prop :=
  ∃ s : Site, s.Hosts r test.1 ∧ made.Names r.root s.home ∧ d.IsDir s.root ∧
    Disk.Alike true (s.Watched true) d (r.alone made test.1 (test.2.after k)).2.disk

theorem Stands.comes (stands : Stands r g made tests maker i draws shared job)
    (isOver : job.progress.outcome? = some outcome)
    (clock : ∀ k, (r.alone made job.file (draws.after k)).1 = (r.alone made job.file draws).1) :
    r.Comes made tests i (job.file, draws) outcome := by
  cases stands with
  | waiting => cases isOver
  | refused crowded => cases isOver; exact .inr ⟨crowded, rfl⟩
  | done alone => cases isOver; exact .inl alone.symm
  | @holding _ k _ _ _ _ same alone =>
    obtain ⟨hend, -⟩ := same.over r job.file isOver
    refine .inl ?_
    rw [← clock k, ← alone, hend]

theorem Stands.kept (stands : Stands r g made tests maker i draws shared job) (bears : r.Bears made g)
    (isOver : job.progress.outcome? = some (.error e)) (keeps : e.keepsRoot = true) :
    ∃ k, (i ≠ maker → k = 0) ∧ r.Kept made shared.disk (job.file, draws) k := by
  cases stands with
  | waiting => cases isOver
  | refused => cases isOver; cases keeps
  | done _ left => cases isOver; rw [left e rfl] at keeps; cases keeps
  | @holding _ k _ isName late _ same alone =>
    obtain ⟨hend, ended⟩ := same.over r job.file isOver
    refine ⟨k, fun hne => by_contra fun hk => hne (late hk), g.site _ isName,
      ⟨bears.path, String.ofList_toList⟩, bears.names, ?_⟩
    cases ended with
    | kept _ _ left _ alike =>
      rw [← alone, hend]
      exact ⟨left, alike⟩
    | gone keeps' => rw [keeps' e rfl] at keeps; cases keeps

/-! ## Whatever the schedule -/

section

variable (registry : r.registry = Verb.standard) (rooted : r.Rooted shared.disk made)
  (plain : ∀ test ∈ tests, r.Plain shared.disk made test.1)
  (run : Pool.Runs r.work tests workers shared p h)
include registry rooted plain run

theorem exists_sharing : ∃ g maker jobs, r.Bears made g ∧ Pool.Shows r.work p h jobs ∧
    Sharing r g shared.disk made tests maker jobs p.shared := by
  obtain ⟨g, bears⟩ := rooted.exists_ground
  obtain ⟨jobs, interleaves, shows'⟩ := run.interleaves
  obtain ⟨maker, sharing⟩ := sharing_of_interleaves registry rooted bears plain interleaves
  exact ⟨g, maker, jobs, bears, shows', sharing⟩

/-- Each test comes back as it does alone, unless it is refused. -/
theorem comes_of_returned (returned : ((worker, i), outcome) ∈ h.returned) :
    ∃ test, tests[i]? = some test ∧ r.Comes made tests i test outcome := by
  obtain ⟨g, maker, jobs, bears, shows', sharing⟩ := exists_sharing registry rooted plain run
  obtain ⟨job, begun, isOver⟩ := shows'.returned returned
  obtain ⟨draws, listed, stands⟩ := sharing.stands begun
  refine ⟨_, listed, stands.comes isOver fun k => ?_⟩
  exact alone_congr registry rooted bears (plain _ (List.mem_of_getElem? listed)) rfl

/-- If all tests pass, the root of the run can be removed. -/
theorem removeRoot_of_passed (isOver : p.Over) (passed : ∀ x ∈ h.returned, x.2 = .ok ())
    (draws : Draws) : ∃ w, r.removeRoot.run ⟨p.shared, draws⟩ = (.ok (), w) ∧
      w.disk.lookAt r.root = .error (.os Errno.noEntry) := by
  obtain ⟨g, maker, jobs, bears, shows', sharing⟩ := exists_sharing registry rooted plain run
  refine removeRoot_gone rooted bears (sharing.empty fun i job begun => ?_)
  obtain ⟨worker, outcome, hret, hover⟩ := shows'.exists_returned run isOver begun
  rw [show outcome = .ok () from passed _ hret] at hover
  refine Bool.eq_false_iff.2 fun holds => ?_
  obtain ⟨e, he, -⟩ := (Progress.holds_of_over hover).1 holds
  cases he

end

theorem not_crowded (names : (tests.map fun test => testName test.1).Nodup) :
    ¬ Crowded tests i := by
  rintro ⟨j, test, other, hne, hi, hj, heq⟩
  have hlength : i < (tests.map fun test => testName test.1).length := by
    rw [List.length_map]
    exact (List.getElem?_eq_some_iff.1 hi).1
  refine hne ((List.getElem?_inj hlength names).1 ?_).symm
  rw [List.getElem?_map, List.getElem?_map, hi, hj]
  exact congrArg some heq

/-! ## Roots that climb

The target of a link is read from the directory of the link. If the root of the run goes up from the
working directory, the targets that `symlink` writes go up as well, and may lead from one test into
another. -/

/-- A run with such a root. -/
def climbing : Run where
  root := ⟨"../../b.t/lhs/run"⟩
  registry := Verb.standard
  target := .console
  workers := 2

/-- A disk with two scripts: the first makes a link and a directory through it, the second makes the
directory that the link leads to. -/
def climbingDisk : Disk :=
  let entry : Node → Entry := fun node => ⟨node, 0o755, ⟨0, 0⟩, ⟨0, 0⟩⟩
  ⟨[([], entry .directory), (["b.t".toList], entry .directory),
    (["b.t".toList, "lhs".toList], entry .directory), (["w".toList], entry .directory),
    (["w".toList, "z".toList], entry .directory),
    (["w".toList, "a.t".toList], entry (.file 0 "symlink lhs=l@f\nmkfile -d l/g\n".toUTF8.data)),
    (["w".toList, "b.t".toList], entry (.file 1 "mkfile -d run/a.t/lhs/f\n".toUTF8.data))], 2,
    ["w".toList, "z".toList]⟩

def climbingTests : List (Path × Draws) :=
  let draws : Draws := ⟨.seeded 0, fun _ => ⟨0, 0⟩, 0⟩
  [(⟨"/w/a.t"⟩, draws), (⟨"/w/b.t"⟩, draws)]

/-- A schedule in which the first test goes on only when the directory of the second is there. -/
def climbingMoves : List PoolMove :=
  [.send, .send, .take 0, .take 1, .advance 1, .advance 1, .advance 0, .advance 0, .advance 0,
    .advance 0, .report 0, .advance 1, .report 1, .leave 0, .leave 1]

/-- One test has come back, and it failed. -/
def oneFailed (h : Pool.History RunError) : Bool :=
  match h.returned with
  | [((0, 0), .error _)] => true
  | _ => false

/-- Two tests have come back, and both passed. -/
def bothPassed (h : Pool.History RunError) : Bool :=
  match h.returned with
  | [((0, 0), .ok ()), ((1, 1), .ok ())] => true
  | _ => false

/-- A script whose path goes through a directory that is made with the run root: if it is the first
one to be read in a batch, it cannot be read, and alone in an empty run root it passes. And a test
that passes in a batch since a link of it leads to what another test has made, below a root that
climbs. -/
theorem outcome_depends_on_run_root :
    (let entry : Node → Entry := fun node => ⟨node, 0o755, ⟨0, 0⟩, ⟨0, 0⟩⟩
    let d : Disk := ⟨[([], entry .directory), (["a.t".toList], entry (.file 0 #[])),
      (["b.t".toList], entry (.file 1 #[]))], 2, []⟩
    let r : Run := { root := ⟨"/new/run"⟩, registry := Verb.standard, target := .console, workers := 1 }
    let draws : Draws := ⟨.seeded 0, fun _ => ⟨0, 0⟩, 0⟩
    let tests : List (Path × Draws) := [(⟨"/new/../b.t"⟩, draws), (⟨"/a.t"⟩, draws)]
    let made := ((Tree.makeDirectories r.root Tree.directoryMode).run ⟨⟨d, []⟩, draws⟩).2.disk
    made.list r.root = .ok [] ∧ (r.alone made ⟨"/new/../b.t"⟩ draws).1 = .ok () ∧
      ∃ p h e, Pool.Runs r.work tests 1 ⟨d, []⟩ p h ∧ h.returned = [((0, 0), .error e)]) ∧
    (let draws : Draws := ⟨.seeded 0, fun _ => ⟨0, 0⟩, 0⟩
    let made := ((Tree.makeDirectories climbing.root Tree.directoryMode).run
      ⟨⟨climbingDisk, []⟩, draws⟩).2.disk
    made.list climbing.root = .ok [] ∧ (climbing.alone made ⟨"/w/a.t"⟩ draws).1 ≠ .ok () ∧
      ∃ p h, Pool.Runs climbing.work climbingTests 2 ⟨climbingDisk, []⟩ p h ∧
        h.returned = [((0, 0), .ok ()), ((1, 1), .ok ())]) := by
  refine ⟨?_, ?_⟩
  · intro entry d r draws tests made
    have halone := alone_checked r made ⟨"/new/../b.t"⟩ draws (fun x => x.toOption == some ()) 2
      (by decide +kernel)
    obtain ⟨p, h, run, hcheck⟩ := Pool.exists_runs_of_play r.work tests 1 ⟨d, []⟩
      [.send, .take 0, .advance 0, .report 0] (fun _ h => oneFailed h) (by decide +kernel)
    refine ⟨eq_ok_of_toOption (by decide +kernel), eq_ok_of_toOption (beq_iff_eq.1 halone), p, h, ?_⟩
    unfold oneFailed at hcheck
    split at hcheck
    · next e heq => exact ⟨e, run, heq⟩
    · cases hcheck
  · intro draws made
    have halone := alone_checked climbing made ⟨"/w/a.t"⟩ draws (fun x => x.toOption.isNone) 3
      (by decide +kernel)
    obtain ⟨p, h, run, hcheck⟩ := Pool.exists_runs_of_play climbing.work climbingTests 2
      ⟨climbingDisk, []⟩ climbingMoves (fun _ h => bothPassed h) (by decide +kernel)
    refine ⟨eq_ok_of_toOption (by decide +kernel), fun hok => ?_, p, h, run, ?_⟩
    · rw [hok] at halone
      cases halone
    · unfold bothPassed at hcheck
      split at hcheck
      · assumption
      · cases hcheck

/-- Whatever the schedule of a batch of tests with different names, every test that comes back has
the outcome that it has alone in an empty run root; and at the end the children of the run root are
the names of those tests that failed and left their directories, which are there as they are after
the test alone; if no test failed, the run root is removed. Only the test that makes the run root
reads the clock more often than alone. -/
theorem batch_independent_of_schedule (registry : r.registry = Verb.standard)
    (rooted : r.Rooted shared.disk made) (plain : ∀ test ∈ tests, r.Plain shared.disk made test.1)
    (names : (tests.map fun test => testName test.1).Nodup)
    (run : Pool.Runs r.work tests workers shared p h) :
    (∀ x ∈ h.returned, ∃ test, tests[x.1.2]? = some test ∧
      x.2 = (r.alone made test.1 test.2).1) ∧
    (p.Over →
      (∀ name, name ∈ p.shared.disk.children r.root ↔ ∃ x ∈ h.returned, ∃ test e,
        tests[x.1.2]? = some test ∧ x.2 = .error e ∧ e.keepsRoot = true ∧
          name = (testName test.1).toList) ∧
      (∃ maker, ∀ x ∈ h.returned, ∀ test e, tests[x.1.2]? = some test → x.2 = .error e →
        e.keepsRoot = true →
        ∃ k, (x.1.2 ≠ maker → k = 0) ∧ r.Kept made p.shared.disk test k) ∧
      ((∀ x ∈ h.returned, x.2 = .ok ()) → ∀ draws, ∃ w,
        r.removeRoot.run ⟨p.shared, draws⟩ = (.ok (), w) ∧
          w.disk.lookAt r.root = .error (.os Errno.noEntry))) := by
  obtain ⟨g, maker, jobs, bears, shows', sharing⟩ := exists_sharing registry rooted plain run
  refine ⟨fun ⟨⟨worker, i⟩, outcome⟩ hret => ?_, fun isOver => ⟨fun name => ?_,
    ⟨maker, fun ⟨⟨worker, i⟩, outcome⟩ hret test e listed error keeps => ?_⟩,
    removeRoot_of_passed registry rooted plain run isOver⟩⟩
  · obtain ⟨test, listed, hcomes⟩ := comes_of_returned registry rooted plain run hret
    exact ⟨test, listed, hcomes.resolve_right fun h => not_crowded names h.1⟩
  · rw [sharing.mem_children_iff rooted bears]
    constructor
    · rintro ⟨i, job, begun, holds, rfl⟩
      obtain ⟨worker, outcome, hret, hover⟩ := shows'.exists_returned run isOver begun
      obtain ⟨draws, listed, -⟩ := sharing.stands begun
      rw [Progress.holds_of_over hover] at holds
      obtain ⟨e, rfl, keeps⟩ := holds
      exact ⟨_, hret, _, e, listed, rfl, keeps, rfl⟩
    · rintro ⟨⟨⟨worker, i⟩, outcome⟩, hret, test, e, listed, rfl, keeps, rfl⟩
      obtain ⟨job, begun, hover⟩ := shows'.returned hret
      obtain ⟨draws, hlisted, -⟩ := sharing.stands begun
      cases listed.symm.trans hlisted
      exact ⟨i, job, begun, (Progress.holds_of_over hover).2 ⟨e, rfl, keeps⟩, rfl⟩
  · obtain ⟨job, begun, hover⟩ := shows'.returned hret
    obtain ⟨draws, hlisted, stands⟩ := sharing.stands begun
    cases listed.symm.trans hlisted
    rw [show outcome = .error e from error] at hover
    exact stands.kept bears hover keeps

/-- One of two tests fails: its directory is left by any batch of the two. -/
theorem failing_test_left_by_batch :
    let entry : Node → Entry := fun node => ⟨node, 0o755, ⟨0, 0⟩, ⟨0, 0⟩⟩
    let d : Disk := ⟨[([], entry .directory),
      (["a.t".toList], entry (.file 0 "mkfile x\n".toUTF8.data)),
      (["b.t".toList], entry (.file 1 "rm lhs=x\n".toUTF8.data))], 2, []⟩
    let r : Run := { root := ⟨"/new/run"⟩, registry := Verb.standard, target := .file, workers := 2 }
    let draws : Draws := ⟨.seeded 0, fun _ => ⟨0, 0⟩, 0⟩
    let tests : List (Path × Draws) := [(⟨"/a.t"⟩, draws), (⟨"/b.t"⟩, draws)]
    ∃ p h, Pool.Runs r.work tests 2 ⟨d, []⟩ p h ∧ p.Over ∧
      "b.t".toList ∈ p.shared.disk.children r.root := by
  intro entry d r draws tests
  let w : World := ⟨⟨d, []⟩, draws⟩
  let made := ((Tree.makeDirectories r.root Tree.directoryMode).run w).2.disk
  have rooted : r.Rooted d made :=
    .of_makes r w ⟨"/new"⟩ "run" (by decide) ⟨by decide, by decide, by decide⟩
      (by decide) (.of_entries (by decide) rfl (by decide)) rfl (by decide +kernel)
      (by decide +kernel)
  have plain : ∀ test ∈ tests, r.Plain d made test.1 := by
    have hmake : Script.parse r.registry "/a.t" "mkfile x\n" =
        .ok [⟨⟨"mkfile", Verb.make⟩, "mkfile", ["x"], 1⟩] := by rfl
    have hremove : Script.parse r.registry "/b.t" "rm lhs=x\n" =
        .ok [⟨⟨"rm", Verb.remove⟩, "rm", ["lhs=x"], 1⟩] := by rfl
    rintro test htest
    obtain rfl | htest := List.mem_cons.1 htest
    · exact rooted.plain (eq_ok_of_toOption (by decide +kernel)) hmake (localCommands_of_noDollar (by decide) (by decide))
    · obtain rfl := List.mem_singleton.1 htest
      exact rooted.plain (eq_ok_of_toOption (by decide +kernel)) hremove (localCommands_of_noDollar (by decide) (by decide))
  have begun : Pool.Runs r.work tests 2 ⟨d, []⟩ _ _ := .start
  obtain ⟨⟨h, run⟩, isOver⟩ := begun.drive (by decide)
  generalize Pool.drive r.work _ = p at run isOver
  obtain ⟨hcomes, hend⟩ := batch_independent_of_schedule rfl rooted plain (by decide) run
  have htaken : 1 ∈ h.taken.map Prod.snd := by
    rw [run.taken_of_over isOver]
    decide
  obtain ⟨⟨worker, i⟩, hmem, rfl⟩ := List.mem_map.1 htaken
  obtain ⟨outcome, hreturned⟩ := run.exists_returned isOver hmem
  obtain ⟨test, listed, halone⟩ := hcomes _ hreturned
  obtain rfl : (⟨"/b.t"⟩, draws) = test := Option.some.inj listed
  have hfails := alone_checked r made ⟨"/b.t"⟩ draws (fun x => (Progress.finished x).holds) 2
    (by decide +kernel)
  rw [← halone] at hfails
  obtain ⟨e, rfl, keeps⟩ := (Progress.holds_of_over rfl).1 hfails
  exact ⟨p, h, run, isOver, (hend isOver).1 _ |>.2 ⟨_, hreturned, _, e, listed, rfl, keeps, by decide +kernel⟩⟩

end TwinTrees.Run
