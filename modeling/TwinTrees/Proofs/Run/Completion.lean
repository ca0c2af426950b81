import TwinTrees.CommandLine
import TwinTrees.Proofs.Action
import TwinTrees.Proofs.Pool.History

/-!
# What a batch in a pool reports

The tests of a batch go through a pool of workers. Whatever the workers do first, each test is
taken by one worker and comes back once, and the batch fails with the failures of the tests that
came back with one, in the order of the files.
-/

namespace TwinTrees.Run

variable {p : Pool (Path × Draws) TestJob Shared RunError} {h : Pool.History RunError}

theorem batchOutcome_eq_ok_iff {failures : List RunError} :
    batchOutcome failures = .ok () ↔ failures = [] := by
  cases failures with
  | nil => exact ⟨fun _ => rfl, fun _ => rfl⟩
  | cons e rest => exact ⟨nofun, nofun⟩

theorem batchOutcome_eq_error {failures : List RunError} {e : RunError}
    (h : batchOutcome failures = .error e) : e = .batch failures := by
  cases failures with
  | nil => cases h
  | cons e' rest => cases h; rfl

/-- In every schedule of a batch, nothing is taken or reported twice, nothing gets stuck, and at
the end each test has come back once, from the worker that took it; the batch fails with just the
failures that came back, by increasing number. -/
theorem batch_reports_each_test (r : Run) (tests : List (Path × Draws)) (workers : Nat)
    (shared : Shared) (hworkers : 0 < workers)
    (run : Pool.Runs r.work tests workers shared p h) :
    ((h.taken.map Prod.snd).Nodup ∧ (h.returned.map fun x => x.1.2).Nodup ∧
      ∀ x ∈ h.returned, x.1 ∈ h.taken ∧ ∃ test job, tests[x.1.2]? = some test ∧
        r.work.Reaches test job ∧ r.work.outcome? job = some x.2) ∧
    ((¬ p.Over → ∃ m q, p.move? r.work m = some q) ∧
      WellFounded fun p' p : Pool (Path × Draws) TestJob Shared RunError =>
        ∃ m, p.move? r.work m = some p') ∧
    (p.Over →
      (h.taken.map Prod.snd = List.range tests.length ∧
        ∀ i < tests.length, ∃ worker outcome, (∀ w, (w, i) ∈ h.taken ↔ w = worker) ∧
          ∀ w o, ((w, i), o) ∈ h.returned ↔ w = worker ∧ o = outcome) ∧
      (batchOutcome p.failuresInOrder = .ok () ↔ ∀ x ∈ h.returned, x.2 = .ok ()) ∧
      ∀ e, batchOutcome p.failuresInOrder = .error e →
        ∃ failing : List (RunError × Nat), e = .batch (failing.map Prod.fst) ∧
          failing.Pairwise (fun a b => a.2 < b.2) ∧
          ∀ e i, (e, i) ∈ failing ↔ ∃ w, ((w, i), .error e) ∈ h.returned) := by
  have a := run.accounts
  obtain ⟨failing, horder, hsorted, hmem⟩ := run.failuresInOrder_eq
  refine ⟨⟨a.taken ▸ List.nodup_range, a.once, fun x hx => ?_⟩,
    ⟨run.exists_move hworkers, Pool.move?_wellFounded r.work⟩, fun hover => ⟨⟨?_, ?_⟩, ?_, ?_⟩⟩
  · exact a.returned hx
  · exact run.taken_of_over hover
  · intro i hi
    rw [← List.mem_range, ← run.taken_of_over hover] at hi
    obtain ⟨⟨worker, j⟩, htaken, rfl⟩ := List.mem_map.1 hi
    obtain ⟨outcome, hret⟩ := run.exists_returned hover htaken
    refine ⟨worker, outcome, fun w => ⟨fun hw => a.worker_unique hw htaken, ?_⟩,
      fun w o => ⟨fun ho => run.outcome_unique ho hret, ?_⟩⟩
    · rintro rfl; exact htaken
    · rintro ⟨rfl, rfl⟩; exact hret
  · rw [batchOutcome_eq_ok_iff, horder, List.map_eq_nil_iff]
    constructor
    · rintro rfl ⟨⟨w, i⟩, o⟩ hret
      cases o with
      | ok u => rfl
      | error e => cases (hmem e i).2 ⟨w, hret⟩
    · intro hok
      rw [List.eq_nil_iff_forall_not_mem]
      rintro ⟨e, i⟩ hfail
      obtain ⟨w, hret⟩ := (hmem e i).1 hfail
      cases hok _ hret
  · intro e he
    exact ⟨failing, (batchOutcome_eq_error he).trans (by rw [horder]), hsorted, hmem⟩

/-- Two tests without a file, in one worker: both come back in their order, and both failures are
reported. -/
theorem batch_reports_two_missing_files :
    let r : Run := { root := ⟨"/run"⟩, registry := Verb.standard, target := .console, workers := 1 }
    let draws : Draws := ⟨.seeded 0, fun _ => ⟨0, 0⟩, 0⟩
    let tests : List (Path × Draws) := [(⟨""⟩, draws), (⟨""⟩, draws)]
    let missing : RunError := .read ⟨""⟩ (.os Errno.noEntry)
    ∃ p h, Pool.Runs r.work tests 1 ⟨.empty ⟨0, 0⟩, []⟩ p h ∧ p.Over ∧
      h.returned = [((0, 0), .error missing), ((0, 1), .error missing)] ∧
      h.taken.map Prod.snd = [0, 1] ∧ ∃ e, batchOutcome p.failuresInOrder = .error e := by
  intro r draws tests missing
  have begun : Pool.Runs r.work tests 1 ⟨.empty ⟨0, 0⟩, []⟩ _ ⟨[], []⟩ := .start
  have run := begun
    |>.move .send rfl
    |>.move (.take 0) rfl
    |>.move (.advance 0) rfl
    |>.move (.report 0) rfl
    |>.move .send rfl
    |>.move (.take 0) rfl
    |>.move (.advance 0) rfl
    |>.move (.report 0) rfl
    |>.move (.leave 0) rfl
  obtain ⟨-, -, hend⟩ := batch_reports_each_test r tests 1 _ Nat.one_pos run
  obtain ⟨⟨htaken, -⟩, hok, -⟩ := hend ⟨rfl, rfl, fun _ h => List.mem_singleton.1 h⟩
  refine ⟨_, _, run, ⟨rfl, rfl, fun _ h => List.mem_singleton.1 h⟩, rfl, htaken, ?_⟩
  cases hout : batchOutcome _ with
  | error e => exact ⟨e, rfl⟩
  | ok u => cases hok.1 hout ((0, 0), .error missing) List.mem_cons_self

/-- The outcome of a batch whose pool comes to its end as `p`. -/
def report (p : Pool (Path × Draws) TestJob Shared RunError) : Action RunError Unit := fun w =>
  (batchOutcome p.failuresInOrder, ⟨p.shared, w.toDraws⟩)

/-- The end of a run of tests in a pool. -/
def concludes (r : Run) (p : Pool (Path × Draws) TestJob Shared RunError) :
    Action RunError Unit := do
  report p
  r.removeRoot

/-- What running tests in a pool can come to: the schedule decides. -/
def CanEnd (r : Run) (tests : List (Path × Draws)) (w : World)
    (x : Except RunError Unit × World) : Prop :=
  ∃ p h, Pool.Runs r.work tests (r.poolSize tests.length) w.toShared p h ∧ p.Over ∧
    x = (r.concludes p).run w

theorem run_concludes (r : Run) (p : Pool (Path × Draws) TestJob Shared RunError) (w : World) :
    (r.concludes p).run w = match batchOutcome p.failuresInOrder with
      | .ok () => r.removeRoot.run ⟨p.shared, w.toDraws⟩
      | .error e => (.error e, ⟨p.shared, w.toDraws⟩) := by
  have hreport : (report p).run w = (batchOutcome p.failuresInOrder, ⟨p.shared, w.toDraws⟩) := rfl
  unfold concludes
  rw [Action.run_bind, hreport]
  cases batchOutcome p.failuresInOrder <;> rfl

end TwinTrees.Run
