import Mathlib.Logic.Function.Basic
import TwinTrees.Proofs.Pool.History

/-!
# Interleavings of jobs

What jobs do to the state that they share depends on the order of their steps only, and not on which
worker has which job. `Interleaves` relates the jobs that have begun, each by the number of its item,
and the shared state to the start. Whatever a pool does is such an interleaving
(`Runs.interleaves`), so an invariant of the shared state has to be shown for two kinds of steps: a
job begins, or a job advances.
-/

namespace TwinTrees.Pool

variable {ι τ σ ε : Type} {work : Work ι τ σ ε} {items : List ι} {workers : Nat} {shared : σ}
  {p q : Pool ι τ σ ε} {h : History ε} {jobs : Nat → Option τ}

theorem update_eq_some {i j : Nat} {job job' : τ}
    (h : Function.update jobs i (some job') j = some job) :
    j = i ∧ job = job' ∨ j ≠ i ∧ jobs j = some job := by
  by_cases heq : j = i
  · subst heq
    rw [Function.update_self] at h
    exact .inl ⟨rfl, (Option.some.inj h).symm⟩
  · rw [Function.update_of_ne heq] at h
    exact .inr ⟨heq, h⟩

/-- The jobs that have begun, and the state they share. -/
inductive Interleaves (work : Work ι τ σ ε) (items : List ι) (shared : σ) :
    (Nat → Option τ) → σ → Prop
  | start : Interleaves work items shared (fun _ => none) shared
  | begin {jobs : Nat → Option τ} {state : σ} {i : Nat} {item : ι}
      (before : Interleaves work items shared jobs state) (listed : items[i]? = some item)
      (new : jobs i = none) :
      Interleaves work items shared (Function.update jobs i (some (work.begin item))) state
  | advance {jobs : Nat → Option τ} {state : σ} {i : Nat} {job : τ}
      (before : Interleaves work items shared jobs state) (begun : jobs i = some job)
      (open' : work.outcome? job = none) :
      Interleaves work items shared (Function.update jobs i (some (work.advance job state).1))
        (work.advance job state).2

/-- The jobs are those of a pool with its history. -/
structure Shows (work : Work ι τ σ ε) (p : Pool ι τ σ ε) (h : History ε)
    (jobs : Nat → Option τ) : Prop where
  busy : ∀ {worker index : Nat} {job : τ}, p.workers[worker]? = some (.busy index job) →
    jobs index = some job
  returned : ∀ {worker index outcome}, ((worker, index), outcome) ∈ h.returned →
    ∃ job, jobs index = some job ∧ work.outcome? job = some outcome
  taken : ∀ {index}, jobs index ≠ none → ∃ worker, (worker, index) ∈ h.taken

namespace Shows

theorem start : Shows work (.start items workers shared) ⟨[], []⟩ fun _ => none where
  busy hw := by
    have hidle := List.mem_of_getElem? hw
    cases List.eq_of_mem_replicate hidle
  returned := nofun
  taken hne := absurd rfl hne

theorem send (s : Shows work p h jobs) (hm : p.move? work .send = some q) :
    Shows work q (h.after work p .send) jobs := by
  obtain ⟨item, rest, -, -, rfl⟩ := move?_send hm
  exact ⟨s.busy, s.returned, s.taken⟩

theorem take (s : Shows work p h jobs) (a : Accounts work items workers p h) {worker : Nat}
    (hm : p.move? work (.take worker) = some q) :
    ∃ index item, items[index]? = some item ∧ jobs index = none ∧
      Shows work q (h.after work p (.take worker))
        (Function.update jobs index (some (work.begin item))) := by
  obtain ⟨item, index, rest, hw, hq, rfl⟩ := move?_take hm
  obtain ⟨hindex, hitem, -⟩ := a.front hq
  have hafter : h.after work p (.take worker) =
      { h with taken := h.taken ++ [(worker, index)] } := by
    simp only [History.after, hq]
  have hfresh : ∀ {v : Nat}, (v, index) ∉ h.taken := by
    intro v hv
    have : index ∈ h.taken.map Prod.snd := List.mem_map_of_mem (f := Prod.snd) hv
    rw [a.taken, List.mem_range] at this
    omega
  rw [hafter]
  refine ⟨index, item, hitem, ?_, fun {v i job} hv => ?_, fun {v i o} hret => ?_,
    fun {i} hne => ?_⟩
  · by_contra hsome
    obtain ⟨v, hv⟩ := s.taken hsome
    exact hfresh hv
  · rw [List.getElem?_set] at hv
    split at hv
    · split at hv
      · cases hv; exact Function.update_self ..
      · cases hv
    · rw [Function.update_of_ne fun heq => hfresh (heq ▸ (a.busy hv).1)]
      exact s.busy hv
  · rw [Function.update_of_ne fun heq => hfresh (heq ▸ (a.returned hret).1)]
    exact s.returned hret
  · by_cases heq : i = index
    · subst heq
      exact ⟨worker, List.mem_append_right _ List.mem_cons_self⟩
    · rw [Function.update_of_ne heq] at hne
      obtain ⟨v, hv⟩ := s.taken hne
      exact ⟨v, List.mem_append_left _ hv⟩

theorem advance (s : Shows work p h jobs) (a : Accounts work items workers p h) {worker : Nat}
    (hm : p.move? work (.advance worker) = some q) :
    ∃ index job, jobs index = some job ∧ work.outcome? job = none ∧
      q.shared = (work.advance job p.shared).2 ∧
      Shows work q (h.after work p (.advance worker))
        (Function.update jobs index (some (work.advance job p.shared).1)) := by
  obtain ⟨index, job, hw, hout, rfl⟩ := move?_advance hm
  obtain ⟨hmem, hnot, -⟩ := a.busy hw
  refine ⟨index, job, s.busy hw, hout, rfl, fun {v i job'} hv => ?_, fun {v i o} hret => ?_,
    fun {i} hne => ?_⟩
  · rw [List.getElem?_set] at hv
    split at hv
    · split at hv
      · cases hv; exact Function.update_self ..
      · cases hv
    · next hne =>
      -- another worker has another job
      have hother : i ≠ index := by
        rintro rfl
        exact hne (a.worker_unique hmem (a.busy hv).1)
      rw [Function.update_of_ne hother]
      exact s.busy hv
  · have hother : i ≠ index := by
      rintro rfl
      exact hnot v o hret
    rw [Function.update_of_ne hother]
    exact s.returned hret
  · by_cases heq : i = index
    · subst heq
      exact ⟨worker, hmem⟩
    · rw [Function.update_of_ne heq] at hne
      exact s.taken hne

theorem report (s : Shows work p h jobs) {worker : Nat}
    (hm : p.move? work (.report worker) = some q) :
    Shows work q (h.after work p (.report worker)) jobs := by
  obtain ⟨index, job, outcome, hw, hout, rfl⟩ := move?_report hm
  have hafter : h.after work p (.report worker) =
      { h with returned := h.returned ++ [((worker, index), outcome)] } := by
    simp only [History.after, hw, hout]
  rw [hafter]
  refine ⟨fun {v i job'} hv => ?_, fun {v i o} hret => ?_, s.taken⟩
  · rw [List.getElem?_set] at hv
    split at hv
    · split at hv <;> cases hv
    · exact s.busy hv
  · obtain hret | hret := List.mem_append.1 hret
    · exact s.returned hret
    · simp only [List.mem_singleton, Prod.mk.injEq] at hret
      obtain ⟨⟨-, rfl⟩, rfl⟩ := hret
      exact ⟨job, s.busy hw, hout⟩

theorem leave (s : Shows work p h jobs) {worker : Nat}
    (hm : p.move? work (.leave worker) = some q) :
    Shows work q (h.after work p (.leave worker)) jobs := by
  obtain ⟨-, -, -, rfl⟩ := move?_leave hm
  refine ⟨fun {v i job'} hv => ?_, s.returned, s.taken⟩
  rw [List.getElem?_set] at hv
  split at hv
  · split at hv <;> cases hv
  · exact s.busy hv

/-- At the end, every job that has begun has come back. -/
theorem exists_returned (s : Shows work p h jobs) (r : Runs work items workers shared p h) (hover : p.Over)
    {index : Nat} {job : τ} (begun : jobs index = some job) :
    ∃ worker outcome, ((worker, index), outcome) ∈ h.returned ∧ work.outcome? job = some outcome := by
  have hbegun : jobs index ≠ none := by rw [begun]; nofun
  obtain ⟨worker, htaken⟩ := s.taken hbegun
  obtain ⟨outcome, hret⟩ := r.exists_returned hover htaken
  obtain ⟨job', hjob', hout⟩ := s.returned hret
  cases begun.symm.trans hjob'
  exact ⟨worker, outcome, hret, hout⟩

end Shows

/-- What happens to the jobs and the state that they share at a time: nothing, or a job begins, or a
job advances. -/
inductive Turn (work : Work ι τ σ ε) (items : List ι) (jobs : Nat → Option τ) (state : σ) :
    (Nat → Option τ) → σ → Prop
  | rest : Turn work items jobs state jobs state
  | begin {i : Nat} {item : ι} (listed : items[i]? = some item) (new : jobs i = none) :
      Turn work items jobs state (Function.update jobs i (some (work.begin item))) state
  | advance {i : Nat} {job : τ} (begun : jobs i = some job) (open' : work.outcome? job = none) :
      Turn work items jobs state (Function.update jobs i (some (work.advance job state).1))
        (work.advance job state).2

/-- A job that is over stays as it is. -/
theorem Turn.over {jobs' : Nat → Option τ} {state state' : σ}
    (turn : Turn work items jobs state jobs' state') {i : Nat} {job : τ} (begun : jobs i = some job)
    (isOver : work.outcome? job ≠ none) : jobs' i = some job := by
  cases turn with
  | rest => exact begun
  | @begin j item listed new =>
    have hne : i ≠ j := by
      rintro rfl
      rw [new] at begun
      cases begun
    rw [Function.update_of_ne hne, begun]
  | @advance j other hj open' =>
    have hne : i ≠ j := by
      rintro rfl
      cases hj.symm.trans begun
      exact isOver open'
    rw [Function.update_of_ne hne, begun]

/-- What a move of a pool does to its jobs. -/
theorem Shows.move (s : Shows work p h jobs) (before : Runs work items workers shared p h)
    {m : PoolMove} (hm : p.move? work m = some q) :
    ∃ jobs', Turn work items jobs p.shared jobs' q.shared ∧
      Shows work q (h.after work p m) jobs' := by
  cases m with
  | send =>
    obtain ⟨item, rest, -, -, rfl⟩ := move?_send hm
    exact ⟨jobs, .rest, s.send hm⟩
  | take worker =>
    obtain ⟨index, item, hitem, hnew, s'⟩ := s.take before.accounts hm
    obtain ⟨_, _, rest, -, -, rfl⟩ := move?_take hm
    exact ⟨_, .begin hitem hnew, s'⟩
  | advance worker =>
    obtain ⟨index, job, hjob, hout, hshared, s'⟩ := s.advance before.accounts hm
    rw [hshared]
    exact ⟨_, .advance hjob hout, s'⟩
  | report worker =>
    obtain ⟨_, _, _, -, -, rfl⟩ := move?_report hm
    exact ⟨jobs, .rest, s.report hm⟩
  | leave worker =>
    obtain ⟨-, -, -, rfl⟩ := move?_leave hm
    exact ⟨jobs, .rest, s.leave hm⟩

/-- Whatever a pool does, its jobs have been interleaved in some way. -/
theorem Runs.interleaves (r : Runs work items workers shared p h) :
    ∃ jobs, Interleaves work items shared jobs p.shared ∧ Shows work p h jobs := by
  induction r with
  | start => exact ⟨_, .start, .start⟩
  | @move p q h m before hm ih =>
    obtain ⟨jobs, interleaves, s⟩ := ih
    obtain ⟨jobs', turn, s'⟩ := s.move before hm
    refine ⟨jobs', ?_, s'⟩
    revert turn
    generalize q.shared = state
    rintro (_ | ⟨listed, new⟩ | ⟨begun, open'⟩)
    · exact interleaves
    · exact interleaves.begin listed new
    · exact interleaves.advance begun open'

end TwinTrees.Pool
