import TwinTrees.Proofs.Run.Completion
import TwinTrees.Proofs.Run.Ownership
import TwinTrees.Proofs.Run.Renewal

/-!
# Calls one after another

A run takes calls: to run one test, to run one test and remove the root if it passes, or to do so
with many tests. All calls share the root. What a failed test has left there is spared by every
later test, since these have directories of their own or are refused (`Passage`). So it stays until
a later call passes and removes the root.
-/

namespace TwinTrees.Run

variable {r : Run} {start made d : Disk} {g : Ground} {tests : List (Path × Draws)} {file : Path}
  {draws : Draws} {e : RunError} {i workers : Nat} {jobs : Nat → Option TestJob} {shared : Shared}
  {w w' : World} {n : Name} {p : Pool (Path × Draws) TestJob Shared RunError}
  {h : Pool.History RunError} {x : Except RunError Unit × World}

/-! ## Tests in order -/

/-- What happens to the disk between two moments of a run: the root is in its place or not made yet,
and what is in it at first stays as it is. -/
structure Passage (r : Run) (g : Ground) (start made d d' : Disk) : Prop where
  course : Course g start made d'
  spares : ∀ n, Taken g n d → Taken g n d' ∧ Spares g n d d'

theorem Passage.refl (course : Course g start made d) : r.Passage g start made d d :=
  ⟨course, fun _ taken => ⟨taken, .refl _⟩⟩

theorem Passage.trans {d' d'' : Disk} (h : r.Passage g start made d d')
    (h' : r.Passage g start made d' d'') : r.Passage g start made d d'' := by
  refine ⟨h'.course, fun n taken => ?_⟩
  obtain ⟨taken', spares⟩ := h.spares n taken
  obtain ⟨taken'', spares'⟩ := h'.spares n taken'
  exact ⟨taken'', spares.trans spares'⟩

/-- The directory of a test is in the run root. -/
def Remains (g : Ground) (file : Path) (d : Disk) : Prop :=
  g.Ready d ∧ d.IsDir (g.home ++ [(testName file).toList])

theorem Remains.taken (h : Remains g file d) : Taken g (testName file).toList d :=
  ⟨h.1, by rw [h.2]; nofun⟩

theorem Owning.remains (o : Owning r g start made tests jobs shared)
    (begun : jobs i = some ⟨file, draws, .finished (.error e)⟩) (keeps : e.keepsRoot = true) :
    Remains g file shared.disk := by
  obtain ⟨isName, same⟩ := o.same begun keeps
  refine ⟨o.ready begun keeps, ?_⟩
  cases same with
  | finished ended =>
    cases ended with
    | kept error _ left => exact left
    | gone gone => exact absurd keeps (Bool.eq_false_iff.1 (gone e rfl))

section

variable (registry : r.registry = Verb.standard) (rooted : r.Rooted start made)
  (bears : r.Bears made g)
include registry rooted bears

theorem Owning.toEnd {progress : Progress}
    (o : Owning r g start made tests jobs w.toShared)
    (begun : jobs i = some ⟨file, w.toDraws, progress⟩)
    (names : progress = .waiting → r.LocalScript w.disk file) (x : Except RunError Unit × World)
    (hx : progress.toEnd r file w = x) :
    ∃ jobs', Owning r g start made tests jobs' x.2.toShared ∧
      jobs' i = some ⟨file, x.2.toDraws, .finished x.1⟩ ∧
      ∀ n, Taken g n w.disk → (progress.holds = true → n ≠ (testName file).toList) →
        Taken g n x.2.disk ∧ Spares g n w.disk x.2.disk := by
  induction progress, w using Progress.toEnd.induct r file generalizing jobs with
  | case1 progress w outcome isOver =>
    cases progress with
    | finished o' =>
      obtain rfl : (o', w) = x := Progress.toEnd_finished.symm.trans hx
      exact ⟨jobs, o, begun, fun n taken _ => ⟨taken, .refl _⟩⟩
    | _ => cases isOver
  | case2 progress w open' ih =>
    obtain ⟨o', hspares⟩ := o.advance registry rooted bears begun open' names
    rw [Progress.toEnd_step open'] at hx
    obtain ⟨jobs', o'', begun', hrest⟩ := ih o' (Function.update_self ..)
      (fun waiting => absurd waiting (Progress.step_ne_waiting open')) hx
    refine ⟨jobs', o'', begun', fun n taken hn => ?_⟩
    obtain ⟨taken', spares, hn'⟩ := hspares n taken hn
    obtain ⟨taken'', spares'⟩ := hrest n taken' hn'
    exact ⟨taken'', spares.trans spares'⟩

/-- What a test does on its own. -/
theorem test_passage (course : Course g start made w.disk) (names : r.LocalScript w.disk file)
    (hx : ((r.test file).withDraws draws).run w = x) :
    r.Passage g start made w.disk x.2.disk ∧
      ∀ e, x.1 = .error e → e.keepsRoot = true → Remains g file x.2.disk := by
  obtain ⟨y, hy⟩ : ∃ y, Progress.toEnd r file .waiting ⟨w.toShared, draws⟩ = y := ⟨_, rfl⟩
  obtain rfl := (run_test_of_toEnd hy).symm.trans hx
  have o : Owning r g start made [(file, draws)]
      (Function.update (fun _ => none) 0 (some ⟨file, draws, .waiting⟩)) w.toShared :=
    (Owning.of_course course).quiet rfl rfl ⟨_, List.mem_cons_self, rfl⟩
  obtain ⟨jobs, o', begun, hspares⟩ := Owning.toEnd (w := ⟨w.toShared, draws⟩) registry rooted bears
    o (Function.update_self ..) (fun _ => names) y hy
  refine ⟨⟨o'.course, fun n taken => hspares n taken nofun⟩, fun e he keeps => ?_⟩
  have he : y.1 = .error e := he
  rw [he] at begun
  exact o'.remains begun keeps

/-- What tests do that go in order. -/
theorem inOrder_passage (course : Course g start made w.disk)
    (names : ∀ before test after w', tests = before ++ test :: after →
      (r.inOrder before).run w = (.ok (), w') → r.LocalScript w'.disk test.1) :
    r.Passage g start made w.disk ((r.inOrder tests).run w).2.disk := by
  induction tests generalizing w with
  | nil => exact .refl course
  | cons test rest ih =>
    obtain ⟨file, draws⟩ := test
    have horder : ∀ tests, r.inOrder ((file, draws) :: tests) =
        (do (r.test file).withDraws draws; r.inOrder tests) := fun _ => rfl
    obtain ⟨x, hx⟩ : ∃ x, ((r.test file).withDraws draws).run w = x := ⟨_, rfl⟩
    obtain ⟨passage, -⟩ := test_passage registry rooted bears course (names [] _ rest w rfl rfl) hx
    obtain ⟨outcome, w₁⟩ := x
    rw [horder, Action.run_bind, hx]
    cases outcome with
    | error e => exact passage
    | ok u =>
      refine passage.trans (ih passage.course fun before test after w' hsplit hrun => ?_)
      refine names ((file, draws) :: before) test after w' (congrArg _ hsplit) ?_
      rw [horder, Action.run_bind, hx]
      exact hrun

end

/-! ## Calls -/

/-- A call of a run. -/
inductive Call
  | test (file : Path) (draws : Draws)
  | single (file : Path) (draws : Draws)
  | batch (parallel : Bool) (tests : List (Path × Draws))

namespace Call

/-- What a call can come to in a world. If there is a pool, the schedule decides. -/
def CanEnd (r : Run) (w : World) : Call → Except RunError Unit × World → Prop
  | .test file draws, x => ((r.test file).withDraws draws).run w = x
  | .single file draws, x => (r.single file draws).run w = x
  | .batch false tests, x => (r.tests false tests).run w = x
  | .batch true tests, x => r.CanEnd tests w x

/-- Whether a call with such an outcome has removed the root. -/
def Clears : Call → Except RunError Unit → Prop
  | .test .., _ => False
  | .single .., outcome => outcome = .ok ()
  | .batch .., outcome => outcome = .ok ()

/-- Every script of the call has local names only whenever it is read. -/
def IsLocal (r : Run) (w : World) : Call → Prop
  | .test file _ => r.LocalScript w.disk file
  | .single file _ => r.LocalScript w.disk file
  | .batch false tests => ∀ before test after w', tests = before ++ test :: after →
      (r.inOrder before).run w = (.ok (), w') → r.LocalScript w'.disk test.1
  | .batch true tests => ∀ p h, Pool.Runs r.work tests (r.poolSize tests.length) w.toShared p h →
      ∀ test ∈ tests, r.LocalScript p.shared.disk test.1

/-- In a call that comes to `x`, the test in a file fails, and then the disk is `d`. -/
inductive Fails (r : Run) (w : World) :
    Call → Path → RunError → Disk → Except RunError Unit × World → Prop
  | test {file : Path} {draws : Draws} {e : RunError} {w' : World}
      (fails : ((r.test file).withDraws draws).run w = (.error e, w')) :
      Fails r w (.test file draws) file e w'.disk (.error e, w')
  | single {file : Path} {draws : Draws} {e : RunError} {w' : World}
      (fails : ((r.test file).withDraws draws).run w = (.error e, w')) :
      Fails r w (.single file draws) file e w'.disk (.error e, w')
  | inOrder {before after : List (Path × Draws)} {file : Path} {draws : Draws} {e : RunError}
      {w₁ w' : World} (passed : (r.inOrder before).run w = (.ok (), w₁))
      (fails : ((r.test file).withDraws draws).run w₁ = (.error e, w')) :
      Fails r w (.batch false (before ++ (file, draws) :: after)) file e w'.disk (.error e, w')
  | inPool {tests : List (Path × Draws)} {p q : Pool (Path × Draws) TestJob Shared RunError}
      {h : Pool.History RunError} {worker i : Nat} {file : Path} {draws : Draws} {e : RunError}
      (run : Pool.Runs r.work tests (r.poolSize tests.length) w.toShared p h)
      (fails : p.workers[worker]? = some (.busy i ⟨file, draws, .finished (.error e)⟩))
      (onward : Relation.ReflTransGen (fun p q => ∃ m, p.move? r.work m = some q) p q)
      (isOver : q.Over) :
      Fails r w (.batch true tests) file e p.shared.disk ((r.concludes q).run w)

end Call

/-- Tests in order, up to one that fails. -/
theorem inOrder_fails {before after : List (Path × Draws)} {w₁ : World}
    (passed : (r.inOrder before).run w = (.ok (), w₁))
    (fails : ((r.test file).withDraws draws).run w₁ = (.error e, w')) :
    (r.inOrder (before ++ (file, draws) :: after)).run w = (.error e, w') := by
  have hcons : ∀ test tests, r.inOrder (test :: tests) =
      (do (r.test test.1).withDraws test.2; r.inOrder tests) := fun _ _ => rfl
  induction before generalizing w with
  | nil =>
    cases passed
    rw [List.nil_append, hcons, Action.run_bind, fails]
  | cons test before ih =>
    rw [hcons, Action.run_bind] at passed
    rw [List.cons_append, hcons, Action.run_bind]
    generalize ((r.test test.1).withDraws test.2).run w = y at passed ⊢
    obtain ⟨outcome, w₂⟩ := y
    cases outcome with
    | error e' => cases passed
    | ok u => exact ih passed

/-- A call in which a test fails can end so. -/
theorem Call.Fails.canEnd {call : Call} (fails : call.Fails r w file e d x) : call.CanEnd r w x := by
  have hremove : ∀ {a : Action RunError Unit} {w'}, a.run w = (.error e, w') →
      (do a; r.removeRoot : Action RunError Unit).run w = (.error e, w') := by
    intro a w' ha
    rw [Action.run_bind, ha]
  cases fails with
  | test fails => exact fails
  | single fails => exact hremove fails
  | inOrder passed fails => exact hremove (inOrder_fails passed fails)
  | @inPool tests p q _ _ _ _ _ _ run fails onward isOver =>
    have hruns : ∃ h, Pool.Runs r.work tests (r.poolSize tests.length) w.toShared q h := by
      clear isOver
      induction onward with
      | refl => exact ⟨_, run⟩
      | tail _ possible ih =>
        obtain ⟨m, possible⟩ := possible
        obtain ⟨h, run⟩ := ih
        exact ⟨_, run.move m possible⟩
    obtain ⟨h, run⟩ := hruns
    exact ⟨_, h, run, isOver, rfl⟩

/-- Calls one after another, with what they come to. -/
inductive Calls (r : Run) : World → List (Call × Except RunError Unit) → World → Prop
  | nil {w : World} : Calls r w [] w
  | cons {w w' : World} {call : Call} {x : Except RunError Unit × World}
      {rest : List (Call × Except RunError Unit)} (names : call.IsLocal r w)
      (ends : call.CanEnd r w x) (onward : Calls r x.2 rest w') :
      Calls r w ((call, x.1) :: rest) w'

/-! ## What failed tests leave -/

section

variable (registry : r.registry = Verb.standard) (era : r.Era g start made)
include registry era

omit registry in
/-- After tests the root is removed if they have passed. -/
theorem ends_of_passage {a : Action RunError Unit}
    (passage : r.Passage g start made w.disk (a.run w).2.disk)
    (hx : (do a; r.removeRoot : Action RunError Unit).run w = x) :
    (x.1 = .ok () ∧ ∃ g start made, r.Era g start made ∧ Course g start made x.2.disk) ∨
      x.1 ≠ .ok () ∧ r.Passage g start made w.disk x.2.disk := by
  rw [Action.run_bind] at hx
  generalize a.run w = y at passage hx
  obtain ⟨outcome, w₁⟩ := y
  cases outcome with
  | error e =>
    subst hx
    exact .inr ⟨nofun, passage⟩
  | ok u =>
    obtain ⟨w', hremove, hera⟩ := era.renew (w := w₁) passage.course
    rw [show r.removeRoot.run w₁ = x from hx] at hremove
    subst hremove
    exact .inl ⟨rfl, hera⟩

/-- What a pool does whose tests have local names. -/
theorem pool_passage (course : Course g start made shared.disk)
    (names : ∀ p h, Pool.Runs r.work tests workers shared p h →
      ∀ test ∈ tests, r.LocalScript p.shared.disk test.1)
    (run : Pool.Runs r.work tests workers shared p h) :
    r.Passage g start made shared.disk p.shared.disk := by
  obtain ⟨jobs, -, o, hleft⟩ := owning_of_runs registry era.rooted era.bears
    (fun p h run _ => names p h run) course run
  exact ⟨o.course, fun n taken => ⟨(hleft n taken).1.1, (hleft n taken).2⟩⟩

theorem Call.CanEnd.passage {call : Call} (course : Course g start made w.disk)
    (names : call.IsLocal r w) (ends : call.CanEnd r w x) :
    (call.Clears x.1 ∧ ∃ g start made, r.Era g start made ∧ Course g start made x.2.disk) ∨
      ¬ call.Clears x.1 ∧ r.Passage g start made w.disk x.2.disk := by
  cases call with
  | test file draws =>
    exact .inr ⟨id, (test_passage registry era.rooted era.bears course names ends).1⟩
  | single file draws =>
    exact ends_of_passage era
      (test_passage registry era.rooted era.bears course names rfl).1 ends
  | batch parallel tests =>
    cases parallel with
    | false =>
      exact ends_of_passage era
        (inOrder_passage registry era.rooted era.bears course names) ends
    | true =>
      obtain ⟨p, h, run, isOver, rfl⟩ := ends
      exact ends_of_passage era (a := report p)
        (pool_passage registry era course names run) rfl

/-- Calls of which none removes the root. -/
theorem Calls.passage {calls : List (Call × Except RunError Unit)}
    (course : Course g start made w.disk) (goes : r.Calls w calls w')
    (clears : ∀ y ∈ calls, ¬ y.1.Clears y.2) : r.Passage g start made w.disk w'.disk := by
  induction goes with
  | nil => exact .refl course
  | cons names ends _ ih =>
    obtain ⟨hclears, -⟩ | ⟨-, passage⟩ := ends.passage registry era course names
    · exact absurd hclears (clears _ List.mem_cons_self)
    · exact passage.trans (ih passage.course fun y hy => clears y (List.mem_cons_of_mem _ hy))

end

/-- After any calls the run can go on. -/
theorem Calls.era (registry : r.registry = Verb.standard)
    {calls : List (Call × Except RunError Unit)} (goes : r.Calls w calls w') :
    ∀ {g start made}, r.Era g start made → Course g start made w.disk →
      ∃ g start made, r.Era g start made ∧ Course g start made w'.disk := by
  induction goes with
  | nil => exact fun era course => ⟨_, _, _, era, course⟩
  | cons names ends _ ih =>
    intro g start made era course
    obtain ⟨-, g', start', made', era', course'⟩ | ⟨-, passage⟩ :=
      ends.passage registry era course names
    · exact ih era' course'
    · exact ih era passage.course

/-- The directory of a test that failed, between two moments of a run. -/
structure Stay (r : Run) (g : Ground) (start made : Disk) (file : Path) (d d' : Disk) : Prop where
  course : Course g start made d'
  remains : Remains g file d
  taken : Taken g (testName file).toList d'
  spares : Spares g (testName file).toList d d'

theorem Stay.refl (course : Course g start made d) (remains : Remains g file d) :
    r.Stay g start made file d d := ⟨course, remains, remains.taken, .refl d⟩

theorem Stay.trans {d' d'' : Disk} (stay : r.Stay g start made file d d')
    (passage : r.Passage g start made d' d'') : r.Stay g start made file d d'' where
  course := passage.course
  remains := stay.remains
  taken := (passage.spares _ stay.taken).1
  spares := stay.spares.trans (passage.spares _ stay.taken).2

section

variable (registry : r.registry = Verb.standard) (era : r.Era g start made)
include registry era

theorem stay_of_test (course : Course g start made w.disk) (names : r.LocalScript w.disk file)
    (fails : ((r.test file).withDraws draws).run w = (.error e, w')) (keeps : e.keepsRoot = true) :
    r.Stay g start made file w'.disk w'.disk := by
  obtain ⟨passage, hremains⟩ := test_passage registry era.rooted era.bears course names fails
  exact .refl passage.course (hremains e rfl keeps)

/-- A test that fails in a pool: its failure is reported, and what it leaves stays. -/
theorem stay_of_pool {q : Pool (Path × Draws) TestJob Shared RunError} {worker : Nat}
    (course : Course g start made shared.disk)
    (names : ∀ p h, Pool.Runs r.work tests workers shared p h →
      ∀ test ∈ tests, r.LocalScript p.shared.disk test.1)
    (run : Pool.Runs r.work tests workers shared p h)
    (fails : p.workers[worker]? = some (.busy i ⟨file, draws, .finished (.error e)⟩))
    (onward : Relation.ReflTransGen (fun p q => ∃ m, p.move? r.work m = some q) p q)
    (isOver : q.Over) (keeps : e.keepsRoot = true) :
    batchOutcome q.failuresInOrder ≠ .ok () ∧
      r.Stay g start made file p.shared.disk q.shared.disk := by
  have names : ∀ p h, Pool.Runs r.work tests workers shared p h →
      Course g start made p.shared.disk → ∀ test ∈ tests, r.LocalScript p.shared.disk test.1 :=
    fun p h run _ => names p h run
  obtain ⟨jobs, shown, o, -⟩ := owning_of_runs registry era.rooted era.bears names course run
  have begun := shown.busy fails
  have remains := o.remains begun keeps
  obtain ⟨h', jobs', run', shown', o', hover, hleft⟩ := owning_onward registry era.rooted era.bears
    names run shown o onward
  refine ⟨fun hok => ?_, ?_⟩
  · obtain ⟨v, outcome, hret, hout⟩ := shown'.exists_returned run' isOver (hover _ _ begun nofun)
    obtain rfl : .error e = outcome := Option.some.inj hout
    obtain ⟨failing, horder, -, hmem⟩ := run'.failuresInOrder_eq
    rw [batchOutcome_eq_ok_iff, horder, List.map_eq_nil_iff] at hok
    have := (hmem e i).2 ⟨v, hret⟩
    rw [hok] at this
    cases this
  · have left : Left r g (testName file).toList jobs p.shared.disk := by
      refine ⟨remains.taken, fun {j other} hj open' holds heq => ?_⟩
      obtain rfl := o.exclusive begun hj keeps holds (String.toList_inj.1 heq)
      cases begun.symm.trans hj
      cases open'
    obtain ⟨left', spares⟩ := hleft _ left
    exact ⟨o'.course, remains, left'.1, spares⟩

/-- What a failed test leaves is there at the end of the call. -/
theorem Call.Fails.stay {call : Call} (course : Course g start made w.disk)
    (names : call.IsLocal r w) (fails : call.Fails r w file e d x) (keeps : e.keepsRoot = true) :
    r.Stay g start made file d x.2.disk := by
  cases fails with
  | test fails => exact stay_of_test registry era course names fails keeps
  | single fails => exact stay_of_test registry era course names fails keeps
  | @inOrder before after _ draws _ w₁ w' passed fails =>
    have names' : ∀ before' test after' w', before = before' ++ test :: after' →
        (r.inOrder before').run w = (.ok (), w') → r.LocalScript w'.disk test.1 :=
      fun before' test after' w' hsplit hrun =>
        names before' test (after' ++ (file, draws) :: after) w' (by simp [hsplit]) hrun
    have passage := inOrder_passage registry era.rooted era.bears course names'
    rw [passed] at passage
    have course₁ : Course g start made w₁.disk := passage.course
    have names₁ : r.LocalScript w₁.disk file := names before (file, draws) after w₁ rfl passed
    exact stay_of_test registry era course₁ names₁ fails keeps
  | @inPool tests p q h worker i _ draws _ run fails onward isOver =>
    obtain ⟨hfails, stay⟩ := stay_of_pool registry era course names run fails onward isOver keeps
    rw [run_concludes]
    cases hout : batchOutcome q.failuresInOrder with
    | ok u => exact absurd hout hfails
    | error e' => exact stay

end

/-! ## Calls step by step -/

/-- The test in a file after so many steps in a world, with sources of its own. -/
def stepped (r : Run) (file : Path) (draws : Draws) (k : Nat) (w : World) : Progress × World :=
  Progress.steps r file k (.waiting, ⟨w.toShared, draws⟩)

/-- The world after these steps. -/
def steppedWorld (r : Run) (file : Path) (draws : Draws) (k : Nat) (w : World) : World :=
  ⟨(r.stepped file draws k w).2.toShared, w.toDraws⟩

section

variable (k : Nat)

/-- What a call for one test comes to if the test is over after so many steps. -/
theorem run_test_of_steps {outcome : Except RunError Unit}
    (isOver : (r.stepped file draws k w).1.outcome? = some outcome) :
    ((r.test file).withDraws draws).run w = (outcome, r.steppedWorld file draws k w) := by
  exact run_test_of_toEnd (Progress.toEnd_of_steps k _ isOver)

theorem passes_of_steps (isOver : (r.stepped file draws k w).1.outcome?.any
      (fun outcome => outcome.toOption == some ()) = true) :
    ((r.test file).withDraws draws).run w = (.ok (), r.steppedWorld file draws k w) := by
  obtain ⟨outcome, isOver, hok⟩ := (Option.any_eq_true _ _).1 isOver
  obtain rfl := eq_ok_of_toOption (beq_iff_eq.1 hok)
  exact run_test_of_steps k isOver

theorem fails_of_steps (isOver : (r.stepped file draws k w).1.outcome?.any
      (fun outcome => (Progress.finished outcome).holds) = true) :
    ∃ e, e.keepsRoot = true ∧
      ((r.test file).withDraws draws).run w = (.error e, r.steppedWorld file draws k w) := by
  obtain ⟨outcome, isOver, holds⟩ := (Option.any_eq_true _ _).1 isOver
  obtain ⟨e, rfl, keeps⟩ := (Progress.holds_of_over rfl).1 holds
  exact ⟨e, keeps, run_test_of_steps k isOver⟩

end

/-- A test fails and leaves its directory, and then another one passes in a call that removes the
root. And below a root that climbs, what a failed test has left is changed by the next one, which
has a link that leads into it. -/
theorem left_then_removed :
    let entry : Node → Entry := fun node => ⟨node, 0o755, ⟨0, 0⟩, ⟨0, 0⟩⟩
    let draws : Draws := ⟨.seeded 0, fun _ => ⟨0, 0⟩, 0⟩
    (let d : Disk := ⟨[([], entry .directory),
        (["bad.t".toList], entry (.file 0 "rm lhs=ghost\n".toUTF8.data)),
        (["ok.t".toList], entry (.file 1 #[]))], 2, []⟩
      let r : Run := { root := ⟨"/new/run"⟩, registry := Verb.standard, target := .console, workers := 1 }
      let w : World := ⟨⟨d, []⟩, draws⟩
      let left : Path := ⟨"/new/run/bad.t"⟩
      ∃ e d x w', Call.IsLocal r w (.single ⟨"/bad.t"⟩ draws) ∧
        Call.Fails r w (.single ⟨"/bad.t"⟩ draws) ⟨"/bad.t"⟩ e d x ∧ e.keepsRoot = true ∧
        d.isDirectory left = true ∧ r.Calls x.2 [(.single ⟨"/ok.t"⟩ draws, .ok ())] w' ∧
        w'.disk.isDirectory left = false) ∧
    (let d : Disk := ⟨[([], entry .directory), (["b.t".toList], entry .directory),
        (["b.t".toList, "lhs".toList], entry .directory), (["w".toList], entry .directory),
        (["w".toList, "z".toList], entry .directory),
        (["w".toList, "a.t".toList], entry (.file 0 "symlink lhs=l@f\nmkfile -d l/g\n".toUTF8.data)),
        (["w".toList, "b.t".toList],
          entry (.file 1 "mkfile -d run/a.t/lhs/f\nrm lhs=ghost\n".toUTF8.data))], 2,
        ["w".toList, "z".toList]⟩
      let r : Run := { root := ⟨"../../b.t/lhs/run"⟩, registry := Verb.standard, target := .console, workers := 1 }
      let w : World := ⟨⟨d, []⟩, draws⟩
      let left : Path := ⟨"/b.t/lhs/run/b.t/lhs/run/a.t/lhs/f/g"⟩
      ∃ e d x w', Call.IsLocal r w (.test ⟨"/w/b.t"⟩ draws) ∧
        Call.Fails r w (.test ⟨"/w/b.t"⟩ draws) ⟨"/w/b.t"⟩ e d x ∧ e.keepsRoot = true ∧
        d.isDirectory left = false ∧ r.Calls x.2 [(.test ⟨"/w/a.t"⟩ draws, .ok ())] w' ∧
        w'.disk.isDirectory left = true) := by
  intro entry draws
  refine ⟨?_, ?_⟩
  · intro d r w left
    let w₁ := r.steppedWorld ⟨"/bad.t"⟩ draws 2 w
    let w₂ := r.steppedWorld ⟨"/ok.t"⟩ draws 2 w₁
    have hcheck : ((r.stepped ⟨"/bad.t"⟩ draws 2 w).1.outcome?.any
          (fun outcome => (Progress.finished outcome).holds) = true ∧
        w₁.disk.isDirectory left = true) ∧
        ((r.stepped ⟨"/ok.t"⟩ draws 2 w₁).1.outcome?.any
          (fun outcome => outcome.toOption == some ()) = true ∧
        (w₁.disk.readText ⟨"/ok.t"⟩).toOption = some "") ∧
        (r.removeRoot.run w₂).1.toOption = some () ∧
        (r.removeRoot.run w₂).2.disk.isDirectory left = false := by decide +kernel
    obtain ⟨⟨hfails, hleft⟩, ⟨hpass, hread₁⟩, hremove, hgone⟩ := hcheck
    obtain ⟨e, keeps, hfails⟩ := fails_of_steps 2 hfails
    have hsingle : (r.single ⟨"/ok.t"⟩ draws).run w₁ = (.ok (), (r.removeRoot.run w₂).2) := by
      unfold single
      rw [Action.run_bind, passes_of_steps 2 hpass]
      exact Action.run_eq_of_toOption hremove
    have hread : w.disk.readText ⟨"/bad.t"⟩ = .ok "rm lhs=ghost\n" :=
      eq_ok_of_toOption (by decide +kernel)
    have hparse : Script.parse r.registry "/bad.t" "rm lhs=ghost\n" =
        .ok [⟨⟨"rm", Verb.remove⟩, "rm", ["lhs=ghost"], 1⟩] := by rfl
    have hlocal : Call.IsLocal r w (.single ⟨"/bad.t"⟩ draws) :=
      localScript_of_read hread hparse (localCommands_of_noDollar (by decide) (by decide))
    have hlocal₁ : Call.IsLocal r w₁ (.single ⟨"/ok.t"⟩ draws) :=
      localScript_of_read (eq_ok_of_toOption hread₁) rfl (localCommands_of_noDollar nofun nofun)
    have hfails : Call.Fails r w (.single ⟨"/bad.t"⟩ draws) ⟨"/bad.t"⟩ e w₁.disk (.error e, w₁) :=
      .single hfails
    have hcalls : r.Calls w₁ [(.single ⟨"/ok.t"⟩ draws, .ok ())] (r.removeRoot.run w₂).2 :=
      .cons hlocal₁ hsingle .nil
    exact ⟨e, _, _, _, hlocal, hfails, keeps, hleft, hcalls, hgone⟩
  · intro d r w left
    let w₁ := r.steppedWorld ⟨"/w/b.t"⟩ draws 3 w
    let w₂ := r.steppedWorld ⟨"/w/a.t"⟩ draws 4 w₁
    have hcheck : ((r.stepped ⟨"/w/b.t"⟩ draws 3 w).1.outcome?.any
          (fun outcome => (Progress.finished outcome).holds) = true ∧
        w₁.disk.isDirectory left = false) ∧
        ((r.stepped ⟨"/w/a.t"⟩ draws 4 w₁).1.outcome?.any
          (fun outcome => outcome.toOption == some ()) = true ∧
        (w₁.disk.readText ⟨"/w/a.t"⟩).toOption = some "symlink lhs=l@f\nmkfile -d l/g\n") ∧
        w₂.disk.isDirectory left = true := by decide +kernel
    obtain ⟨⟨hfails, hleft⟩, ⟨hpass, hread₁⟩, hthere⟩ := hcheck
    obtain ⟨e, keeps, hfails⟩ := fails_of_steps 3 hfails
    have hpass := passes_of_steps 4 hpass
    have hread : w.disk.readText ⟨"/w/b.t"⟩ = .ok "mkfile -d run/a.t/lhs/f\nrm lhs=ghost\n" :=
      eq_ok_of_toOption (by decide +kernel)
    have hparse : Script.parse r.registry "/w/b.t" "mkfile -d run/a.t/lhs/f\nrm lhs=ghost\n" =
        .ok [⟨⟨"mkfile", Verb.make⟩, "mkfile", ["-d", "run/a.t/lhs/f"], 1⟩,
          ⟨⟨"rm", Verb.remove⟩, "rm", ["lhs=ghost"], 2⟩] := by rfl
    have hparse₁ : Script.parse r.registry "/w/a.t" "symlink lhs=l@f\nmkfile -d l/g\n" =
        .ok [⟨⟨"symlink", Verb.link⟩, "symlink", ["lhs=l@f"], 1⟩,
          ⟨⟨"mkfile", Verb.make⟩, "mkfile", ["-d", "l/g"], 2⟩] := by rfl
    have hlocal : Call.IsLocal r w (.test ⟨"/w/b.t"⟩ draws) :=
      localScript_of_read hread hparse (localCommands_of_noDollar (by decide) (by decide))
    have hlocal₁ : Call.IsLocal r w₁ (.test ⟨"/w/a.t"⟩ draws) :=
      localScript_of_read (eq_ok_of_toOption hread₁) hparse₁
        (localCommands_of_noDollar (by decide) (by decide))
    have hfails : Call.Fails r w (.test ⟨"/w/b.t"⟩ draws) ⟨"/w/b.t"⟩ e w₁.disk (.error e, w₁) :=
      .test hfails
    have hcalls : r.Calls w₁ [(.test ⟨"/w/a.t"⟩ draws, .ok ())] w₂ := .cons hlocal₁ hpass .nil
    exact ⟨e, _, _, _, hlocal, hfails, keeps, hleft, hcalls, hthere⟩

/-- Whatever calls a run gets one after another: a test that fails after its environment was built
leaves its directory, and from the moment of the failure on it stays as it is, with all that is in
it, until a later call passes that removes the root. -/
theorem failed_test_stays {before after : List (Call × Except RunError Unit)} {call : Call}
    {w₁ : World} (registry : r.registry = Verb.standard) (rooted : r.Rooted w.disk made)
    (approach : ∃ dir n, made.Names r.root (dir ++ [n]) ∧ r.Approach dir n made)
    (earlier : r.Calls w before w₁) (names : call.IsLocal r w₁)
    (fails : call.Fails r w₁ file e d x) (keeps : e.keepsRoot = true)
    (later : r.Calls x.2 after w') (clears : ∀ y ∈ after, ¬ y.1.Clears y.2) :
    ∃ home, w'.disk.Names r.root home ∧ w'.disk.IsDir (home ++ [(testName file).toList]) ∧
      ∀ l, home ++ [(testName file).toList] <+: l → w'.disk.get? l = d.get? l := by
  obtain ⟨dir, n, hnames, approach⟩ := approach
  obtain ⟨g, bears, hhome⟩ := rooted.ground_of_names hnames
  obtain ⟨g, start, made, era, course⟩ :=
    earlier.era registry ⟨rooted, bears, dir, n, hhome, approach⟩ .fresh
  have stay := fails.stay registry era course names keeps
  have stay := stay.trans (later.passage registry era stay.course clears)
  refine ⟨g.home, era.bears.path ▸ stay.taken.1.names, ?_, stay.spares⟩
  rw [Disk.IsDir, Disk.node?, stay.spares _ List.prefix_rfl]
  exact stay.remains.2

/-- A test fails, and another one passes after it in a call that does not remove the root. -/
theorem left_beside_passed :
    let entry : Node → Entry := fun node => ⟨node, 0o755, ⟨0, 0⟩, ⟨0, 0⟩⟩
    let d : Disk := ⟨[([], entry .directory),
      (["bad.t".toList], entry (.file 0 "rm lhs=ghost\n".toUTF8.data)),
      (["ok.t".toList], entry (.file 1 #[]))], 2, []⟩
    let r : Run := { root := ⟨"/new/run"⟩, registry := Verb.standard, target := .console, workers := 1 }
    let draws : Draws := ⟨.seeded 0, fun _ => ⟨0, 0⟩, 0⟩
    let w : World := ⟨⟨d, []⟩, draws⟩
    ∃ e d' x w', Call.Fails r w (.single ⟨"/bad.t"⟩ draws) ⟨"/bad.t"⟩ e d' x ∧
      r.Calls x.2 [(.test ⟨"/ok.t"⟩ draws, .ok ())] w' ∧
      ∃ home, w'.disk.Names r.root home ∧ w'.disk.IsDir (home ++ ["bad.t".toList]) ∧
        ∀ l, home ++ ["bad.t".toList] <+: l → w'.disk.get? l = d'.get? l := by
  intro entry d r draws w
  have rooted : r.Rooted w.disk ((Tree.makeDirectories r.root Tree.directoryMode).run w).2.disk :=
    .of_makes r w ⟨"/new"⟩ "run" (by decide) ⟨by decide, by decide, by decide⟩
      (by decide) (.of_entries (by decide) rfl (by decide)) rfl (by decide +kernel)
      (by decide +kernel)
  have approach : r.Approach ["new".toList] "run".toList
      ((Tree.makeDirectories r.root Tree.directoryMode).run w).2.disk := {
    tree := rooted.isTree_made
    working := by decide +kernel
    outside := by decide +kernel
    way := by
      refine ⟨[.name "new".toList], 0, by decide +kernel, by decide, ?_⟩
      rw [Path.startFrom_of_absolute (by decide)]
      exact .directory (by decide +kernel) .nil }
  let w₁ := r.steppedWorld ⟨"/bad.t"⟩ draws 2 w
  let w₂ := r.steppedWorld ⟨"/ok.t"⟩ draws 2 w₁
  have hcheck : ((r.stepped ⟨"/bad.t"⟩ draws 2 w).1.outcome?.any
        (fun outcome => (Progress.finished outcome).holds) = true) ∧
      ((r.stepped ⟨"/ok.t"⟩ draws 2 w₁).1.outcome?.any
        (fun outcome => outcome.toOption == some ()) = true) ∧
      (w₁.disk.readText ⟨"/ok.t"⟩).toOption = some "" := by decide +kernel
  obtain ⟨hfails, hpass, hread₁⟩ := hcheck
  obtain ⟨e, keeps, hfails⟩ := fails_of_steps 2 hfails
  have hread : w.disk.readText ⟨"/bad.t"⟩ = .ok "rm lhs=ghost\n" :=
    eq_ok_of_toOption (by decide +kernel)
  have hparse : Script.parse r.registry "/bad.t" "rm lhs=ghost\n" =
      .ok [⟨⟨"rm", Verb.remove⟩, "rm", ["lhs=ghost"], 1⟩] := by rfl
  have hlocal : Call.IsLocal r w (.single ⟨"/bad.t"⟩ draws) :=
    localScript_of_read hread hparse (localCommands_of_noDollar (by decide) (by decide))
  have hlocal₁ : Call.IsLocal r w₁ (.test ⟨"/ok.t"⟩ draws) :=
    localScript_of_read (eq_ok_of_toOption hread₁) rfl (localCommands_of_noDollar nofun nofun)
  have hfails : Call.Fails r w (.single ⟨"/bad.t"⟩ draws) ⟨"/bad.t"⟩ e w₁.disk (.error e, w₁) :=
    .single hfails
  have hcalls : r.Calls w₁ [(.test ⟨"/ok.t"⟩ draws, .ok ())] w₂ :=
    .cons hlocal₁ (passes_of_steps 2 hpass) .nil
  have clears : ∀ y ∈ [((.test ⟨"/ok.t"⟩ draws : Call), (.ok () : Except RunError Unit))],
      ¬ y.1.Clears y.2 := fun y hy => by
    obtain rfl := List.mem_singleton.1 hy
    exact id
  obtain ⟨home, names, isDir, same⟩ := failed_test_stays rfl rooted
    ⟨_, _, approach.names ⟨by decide, by decide, by decide⟩ (by decide +kernel), approach⟩ .nil
    hlocal hfails keeps hcalls clears
  have hname : testName ⟨"/bad.t"⟩ = "bad.t" := by decide +kernel
  rw [hname] at isDir same
  exact ⟨e, _, _, _, hfails, hcalls, home, names, isDir, same⟩

end TwinTrees.Run
