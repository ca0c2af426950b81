import TwinTrees.Proofs.Pool.Interleaving
import TwinTrees.Proofs.Run.Alone

/-!
# Tests that share a run root

However the tests of a batch are interleaved, each of them stands as it does alone: it waits; or it
is over with the outcome that it has alone, and has left nothing; or its directory is there and
looks as it does alone. Only if another test has the same name, it may have been refused. `Sharing`
is this invariant, with all that is needed to keep it when a test takes a step: what is in the run
root are the directories of the tests, and no two tests have one directory
(`sharing_of_interleaves`).
-/

namespace TwinTrees.Run

variable {r : Run} {start made d : Disk} {g : Ground} {tests : List (Path × Draws)}
  {maker maker' i j : Nat} {jobs : Nat → Option TestJob} {shared shared' : Shared} {draws : Draws}
  {job : TestJob}

/-- Another test has the same name. -/
def Crowded (tests : List (Path × Draws)) (i : Nat) : Prop :=
  ∃ j test other, j ≠ i ∧ tests[i]? = some test ∧ tests[j]? = some other ∧
    testName test.1 = testName other.1

/-- How a test stands that has drawn from `draws`, compared with the same test alone. The clock is
read more often before the run root is there, which only its maker sees. -/
inductive Stands (r : Run) (g : Ground) (made : Disk) (tests : List (Path × Draws)) (maker i : Nat)
    (draws : Draws) (shared : Shared) : TestJob → Prop
  | waiting {file : Path} : Stands r g made tests maker i draws shared ⟨file, draws, .waiting⟩
  | refused {file : Path} {rest : Draws} (crowded : Crowded tests i) :
      Stands r g made tests maker i draws shared ⟨file, rest, .finished (.error (refusal file))⟩
  | done {file : Path} {rest : Draws} {outcome : Except RunError Unit}
      (alone : (r.alone made file draws).1 = outcome)
      (left : ∀ e, outcome = .error e → e.keepsRoot = false) :
      Stands r g made tests maker i draws shared ⟨file, rest, .finished outcome⟩
  | holding {job : TestJob} {k : Nat} {y : Progress × World}
      (isName : IsName (testName job.file).toList) (late : k ≠ 0 → i = maker)
      (holds : job.progress.holds = true)
      (same : (g.site _ isName).SameProgress true r.workers
        (job.progress, ⟨shared, job.draws⟩) y)
      (alone : y.1.toEnd r job.file y.2 = r.alone made job.file (draws.after k)) :
      Stands r g made tests maker i draws shared job

namespace Stands

/-- A test without a directory stands as it does, whatever happens to the disk. -/
theorem of_not_holds (h : Stands r g made tests maker i draws shared job)
    (nothing : job.progress.holds = false) :
    Stands r g made tests maker' i draws shared' job := by
  cases h with
  | waiting => exact .waiting
  | refused crowded => exact .refused crowded
  | done alone left => exact .done alone left
  | holding _ _ holds => rw [holds] at nothing; cases nothing

theorem of_disk (h : Stands r g made tests maker i draws shared job)
    (disk : shared'.disk = shared.disk) : Stands r g made tests maker i draws shared' job := by
  cases h with
  | waiting => exact .waiting
  | refused crowded => exact .refused crowded
  | done alone left => exact .done alone left
  | holding isName late holds same alone =>
    exact .holding isName late holds (same.of_disk disk rfl rfl) alone

/-- A test stands as it does, whatever another one does in its own directory. -/
theorem beside {name : Name} {isName' : IsName name}
    (h : Stands r g made tests maker i draws shared job) (other : (testName job.file).toList ≠ name)
    (stays : (g.site name isName').Stays shared.disk shared'.disk) :
    Stands r g made tests maker i draws shared' job := by
  cases h with
  | waiting => exact .waiting
  | refused crowded => exact .refused crowded
  | done alone left => exact .done alone left
  | holding isName late holds same alone =>
    have b : (g.site _ isName).Beside (g.site name isName') := ⟨rfl, other.symm⟩
    exact .holding isName late holds (same.beside b stays rfl rfl) alone

/-- A test that has come as far as it has alone. -/
theorem of_same {file : Path} {k : Nat} {x y : Progress × World}
    (isName : IsName (testName file).toList) (late : k ≠ 0 → i = maker)
    (same : (g.site _ isName).SameProgress true r.workers x y)
    (alone : y.1.toEnd r file y.2 = r.alone made file (draws.after k))
    (clock : (r.alone made file (draws.after k)).1 = (r.alone made file draws).1) :
    Stands r g made tests maker i draws x.2.toShared ⟨file, x.2.toDraws, x.1⟩ := by
  by_cases holds : x.1.holds = true
  · exact .holding isName late holds same alone
  · cases same with
    | running => exact absurd rfl holds
    | finished ended =>
      cases ended with
      | kept error keeps => subst error; exact absurd keeps holds
      | gone keeps =>
        rw [Progress.toEnd_finished] at alone
        refine .done ?_ keeps
        rw [← clock, ← alone]

end Stands

/-- The invariant of a batch (see the module docstring). -/
structure Sharing (r : Run) (g : Ground) (start made : Disk) (tests : List (Path × Draws))
    (maker : Nat) (jobs : Nat → Option TestJob) (shared : Shared) : Prop where
  course : Course g start made shared.disk
  stands : ∀ {i job}, jobs i = some job → ∃ draws, tests[i]? = some (job.file, draws) ∧
    Stands r g made tests maker i draws shared job
  ready : ∀ {i job}, jobs i = some job → job.progress.holds = true → g.Ready shared.disk
  exclusive : ∀ {i j job other}, jobs i = some job → jobs j = some other →
    job.progress.holds = true → other.progress.holds = true →
    testName job.file = testName other.file → i = j
  occupied : g.Ready shared.disk → ∀ n, shared.disk.node? (g.home ++ [n]) ≠ none →
    ∃ i job, jobs i = some job ∧ job.progress.holds = true ∧ n = (testName job.file).toList

theorem not_near_of_ne {n name : Name} {isName : IsName name} (hne : n ≠ name) :
    ¬ (g.site name isName).Near (g.home ++ [n]) := by
  rintro (hbelow | hhome)
  · have := hbelow.eq_of_length (by simp [Site.root, Ground.site])
    exact hne (List.cons.inj (List.append_inj_right this rfl)).1.symm
  · simp [Ground.site] at hhome

namespace Sharing

theorem of_start (h : r.Rooted start made) (bears : r.Bears made g) {journal : List Record} :
    Sharing r g start made tests 0 (fun _ => none) ⟨start, journal⟩ where
  course := .fresh
  stands := nofun
  ready := nofun
  exclusive := nofun
  occupied ready n hn := by
    have hthere := ready.isDirectory
    rw [bears.path] at hthere
    refine absurd (bears.vacant _ (not_not_intro ⟨List.prefix_append _ [n], by simp⟩)) ?_
    rw [h.made_eq_of_isDirectory hthere]
    exact hn

variable (s : Sharing r g start made tests maker jobs shared)
include s

theorem there (begun : jobs i = some job) (holds : job.progress.holds = true) :
    shared.disk.node? (g.home ++ [(testName job.file).toList]) ≠ none := by
  obtain ⟨draws, -, stands⟩ := s.stands begun
  cases stands with
  | waiting => cases holds
  | refused => cases holds
  | @done _ _ outcome _ left =>
    cases outcome with
    | ok => cases holds
    | error e => exact absurd holds (Bool.eq_false_iff.1 (left e rfl))
  | holding _ _ _ same => exact same.holds_iff.1 holds

/-- A job that has no directory begins, or is over. -/
theorem quiet (disk : shared'.disk = shared.disk)
    (before : ∀ job, jobs i = some job → job.progress.holds = false)
    (after : job.progress.holds = false) (listed : tests[i]? = some (job.file, draws))
    (stands : Stands r g made tests maker i draws shared' job) :
    Sharing r g start made tests maker (Function.update jobs i (some job)) shared' where
  course := by rw [disk]; exact s.course
  stands hj := by
    obtain ⟨rfl, rfl⟩ | ⟨-, hj⟩ := Pool.update_eq_some hj
    · exact ⟨draws, listed, stands⟩
    · obtain ⟨draws, hlisted, hstands⟩ := s.stands hj
      exact ⟨draws, hlisted, hstands.of_disk disk⟩
  ready hj holds := by
    obtain ⟨-, rfl⟩ | ⟨-, hj⟩ := Pool.update_eq_some hj
    · rw [after] at holds; cases holds
    · rw [disk]; exact s.ready hj holds
  exclusive hj hj' holds holds' name := by
    obtain ⟨-, rfl⟩ | ⟨-, hj⟩ := Pool.update_eq_some hj
    · rw [after] at holds; cases holds
    · obtain ⟨-, rfl⟩ | ⟨-, hj'⟩ := Pool.update_eq_some hj'
      · rw [after] at holds'; cases holds'
      · exact s.exclusive hj hj' holds holds' name
  occupied ready n hn := by
    rw [disk] at ready hn
    obtain ⟨j, other, hj, holds, hname⟩ := s.occupied ready n hn
    have hne : j ≠ i := by
      rintro rfl
      rw [before other hj] at holds
      cases holds
    exact ⟨j, other, by rw [Function.update_of_ne hne]; exact hj, holds, hname⟩

/-- The run root is made. -/
theorem root (fresh : ¬ g.Ready shared.disk) (ready : g.Ready d)
    (alike : Disk.Alike false g.Apart made d) (vacant : g.Vacant d) (maker' : Nat) :
    Sharing r g start made tests maker' jobs ⟨d, shared.journal⟩ where
  course := .rooted ready alike
  stands hj := by
    obtain ⟨draws, hlisted, hstands⟩ := s.stands hj
    exact ⟨draws, hlisted, hstands.of_not_holds
      (Bool.eq_false_iff.2 fun holds => fresh (s.ready hj holds))⟩
  ready hj holds := absurd (s.ready hj holds) fresh
  exclusive := s.exclusive
  occupied _ n hn := absurd (vacant _ (not_not_intro ⟨List.prefix_append _ [n], by simp⟩)) hn

/-- A test acts in its directory. -/
theorem move (h : r.Rooted start made) (bears : r.Bears made g) (ready : g.Ready shared.disk)
    (isName : IsName (testName job.file).toList)
    (others : ∀ j other, j ≠ i → jobs j = some other → other.progress.holds = true →
      testName other.file ≠ testName job.file)
    (stays : (g.site _ isName).Stays shared.disk shared'.disk)
    (listed : tests[i]? = some (job.file, draws))
    (stands : Stands r g made tests maker i draws shared' job)
    (held : job.progress.holds = true ↔ shared'.disk.node? (g.site _ isName).root ≠ none) :
    Sharing r g start made tests maker (Function.update jobs i (some job)) shared' := by
  have hready : g.Ready shared'.disk := ready.of_alike stays.tree stays.apart
  have hother : ∀ {j other}, j ≠ i → jobs j = some other → other.progress.holds = true →
      (testName other.file).toList ≠ (testName job.file).toList := fun hne hj holds heq =>
    others _ _ hne hj holds (String.toList_inj.1 heq)
  refine ⟨.rooted hready ((s.course.alike h bears ready).trans stays.apart), fun hj => ?_,
    fun _ _ => hready, fun hj hj' holds holds' name => ?_, fun _ n hn => ?_⟩
  · obtain ⟨rfl, rfl⟩ | ⟨hne, hj⟩ := Pool.update_eq_some hj
    · exact ⟨draws, listed, stands⟩
    · obtain ⟨draws, hlisted, hstands⟩ := s.stands hj
      refine ⟨draws, hlisted, ?_⟩
      cases holds : Progress.holds _ with
      | true => exact hstands.beside (hother hne hj holds) stays
      | false => exact hstands.of_not_holds holds
  · obtain ⟨rfl, rfl⟩ | ⟨hne, hbegun⟩ := Pool.update_eq_some hj
    · obtain ⟨rfl, -⟩ | ⟨hne', hbegun'⟩ := Pool.update_eq_some hj'
      · rfl
      · exact absurd name.symm (others _ _ hne' hbegun' holds')
    · obtain ⟨rfl, rfl⟩ | ⟨-, hbegun'⟩ := Pool.update_eq_some hj'
      · exact absurd name (others _ _ hne hbegun holds)
      · exact s.exclusive hbegun hbegun' holds holds' name
  · by_cases hname : n = (testName job.file).toList
    · subst hname
      exact ⟨i, job, Function.update_self .., held.2 hn, rfl⟩
    · rw [stays.off.node? (not_near_of_ne hname)] at hn
      obtain ⟨j, other, hj, holds, hj'⟩ := s.occupied ready n hn
      have hne : j ≠ i := by
        rintro rfl
        obtain ⟨_, hlisted, -⟩ := s.stands hj
        rw [hlisted, Option.some.injEq, Prod.mk.injEq] at listed
        exact hname (listed.1 ▸ hj')
      exact ⟨j, other, by rw [Function.update_of_ne hne]; exact hj, holds, hj'⟩

/-- A test takes a step. -/
theorem advance (registry : r.registry = Verb.standard) (h : r.Rooted start made)
    (bears : r.Bears made g)
    (plain : ∀ test ∈ tests, r.Plain start made test.1)
    (begun : jobs i = some job) (open' : r.work.outcome? job = none) :
    ∃ maker', Sharing r g start made tests maker'
      (Function.update jobs i (some (r.work.advance job shared).1)) (r.work.advance job shared).2 := by
  obtain ⟨draws, listed, stands⟩ := s.stands begun
  have plain := plain _ (List.mem_of_getElem? listed)
  have clock : ∀ k, (r.alone made job.file (draws.after k)).1 = (r.alone made job.file draws).1 :=
    fun k => alone_congr registry h bears plain rfl
  cases stands with
  | refused => cases open'
  | done => cases open'
  | holding isName late holds same alone =>
    obtain ⟨hstep, hstays, -⟩ := same.step r job.file
    have ready := s.ready begun holds
    refine ⟨maker, s.move h bears ready isName (fun j other hne hj hother heq => ?_)
      (hstays ready.tree) listed (.of_same isName late hstep ?_ (clock _)) hstep.holds_iff⟩
    · exact hne (s.exclusive hj begun hother holds heq)
    · rw [← alone, Progress.toEnd_step (same.outcome?_eq.trans open')]
  | @waiting file =>
    obtain ⟨k, hk, first⟩ := first_step (w := ⟨shared, draws⟩) registry h bears plain s.course
    have before : ∀ job, jobs i = some job → job.progress.holds = false := by
      intro job hjob
      cases begun.symm.trans hjob
      rfl
    generalize hx : Progress.step r file .waiting ⟨shared, draws⟩ = x at first
    have hadvance : r.work.advance ⟨file, draws, .waiting⟩ shared =
        (⟨file, x.2.toDraws, x.1⟩, x.2.toShared) := by
      rw [← hx]
      rfl
    rw [hadvance]
    cases first true (draws.after k) rfl fun _ => rfl with
    | failed alone left same =>
      exact ⟨maker, s.quiet same before left listed
        (.done ((clock k).symm.trans alone) fun e he => by cases he; exact left)⟩
    | refused ready there same =>
      obtain ⟨j, other, hj, holds, hname⟩ := s.occupied ready _ there
      obtain ⟨draws', hlisted, -⟩ := s.stands hj
      refine ⟨maker, s.quiet same before rfl listed (.refused ⟨j, _, _, ?_, listed, hlisted, ?_⟩)⟩
      · rintro rfl
        rw [before other hj] at holds
        cases holds
      · exact String.toList_inj.1 hname
    | @entered _ d isName ready alike found free same stays =>
      obtain ⟨maker', late, s'⟩ : ∃ maker', (k ≠ 0 → i = maker') ∧
          Sharing r g start made tests maker' jobs ⟨d, shared.journal⟩ := by
        obtain ⟨hready, rfl⟩ | ⟨fresh, -, vacant⟩ := found
        · exact ⟨maker, fun hne => absurd (hk hready) hne, s⟩
        · exact ⟨i, fun _ => rfl, s.root fresh ready alike vacant i⟩
      refine ⟨maker', s'.move h bears ready isName (fun j other _ hj hother heq => ?_) stays listed
        (.of_same isName late same ?_ (clock k)) same.holds_iff⟩
      · refine absurd free ?_
        rw [← heq]
        exact s'.there hj hother
      · rw [← Progress.toEnd_step rfl]
        rfl

/-! ## What is in the run root -/

theorem mem_children_iff (h : r.Rooted start made) (bears : r.Bears made g) {name : Name} :
    name ∈ shared.disk.children r.root ↔ ∃ i job, jobs i = some job ∧
      job.progress.holds = true ∧ name = (testName job.file).toList := by
  by_cases ready : g.Ready shared.disk
  · rw [mem_children bears ready]
    constructor
    · exact s.occupied ready name
    · rintro ⟨i, job, begun, holds, rfl⟩
      exact s.there begun holds
  · rw [s.course.eq_start ready, h.children_start]
    refine ⟨nofun, ?_⟩
    rintro ⟨i, job, begun, holds, -⟩
    exact absurd (s.ready begun holds) ready

/-- If no test has a directory, the run root is empty, or it was not made yet. -/
theorem empty (none : ∀ i job, jobs i = some job → job.progress.holds = false) :
    g.Ready shared.disk ∧ g.Vacant shared.disk ∨ shared.disk = start := by
  by_cases ready : g.Ready shared.disk
  · refine .inl ⟨ready, .of_names ready.tree (Disk.names_eq_nil_iff.2 fun n => ?_)⟩
    by_contra hn
    obtain ⟨i, job, begun, holds, -⟩ := s.occupied ready n hn
    rw [none i job begun] at holds
    cases holds
  · exact .inr (s.course.eq_start ready)

end Sharing

/-- The invariant holds however the tests are interleaved. -/
theorem sharing_of_interleaves (registry : r.registry = Verb.standard) (h : r.Rooted start made)
    (bears : r.Bears made g)
    (plain : ∀ test ∈ tests, r.Plain start made test.1)
    {journal : List Record}
    (interleaves : Pool.Interleaves r.work tests ⟨start, journal⟩ jobs shared) :
    ∃ maker, Sharing r g start made tests maker jobs shared := by
  induction interleaves with
  | start => exact ⟨0, .of_start h bears⟩
  | @begin jobs shared i test before listed new ih =>
    obtain ⟨maker, s⟩ := ih
    exact ⟨maker, s.quiet rfl (fun job hjob => by rw [new] at hjob; cases hjob) rfl listed .waiting⟩
  | advance before begun open' ih =>
    obtain ⟨maker, s⟩ := ih
    exact s.advance registry h bears plain begun open'

end TwinTrees.Run
