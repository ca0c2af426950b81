import Mathlib.Data.List.Nodup
import TwinTrees.Run.Pool

/-!
# Histories of a pool

A history lists which worker took which job, and the outcome with which each job came back. `Runs`
relates the pools that any sequence of moves can reach to their histories.

`Accounts` is the invariant behind everything that is said about schedules: at each moment the
numbers of the items are divided among those not sent yet, those in the queue, those that a worker
is busy with, and those that have come back. It holds however the moves interleave
(`Runs.accounts`), so no pool gets stuck before its end (`Runs.exists_move`), and at the end each
item has come back once (`Runs.exists_returned`).
-/

namespace TwinTrees

/-- The states that a job of an item can get into, whatever the others do to the shared state. -/
inductive Work.Reaches {ι τ σ ε : Type} (work : Work ι τ σ ε) (item : ι) : τ → Prop
  | begin : work.Reaches item (work.begin item)
  | advance {job : τ} (state : σ) (before : work.Reaches item job)
      (open' : work.outcome? job = none) : work.Reaches item (work.advance job state).1

namespace Pool

variable {ι τ σ ε : Type} {work : Work ι τ σ ε} {items : List ι} {workers : Nat} {shared : σ}
  {p q : Pool ι τ σ ε}

/-- What a pool has done so far. -/
structure History (ε : Type) where
  /-- The workers that took a job, with the numbers of the jobs. -/
  taken : List (Nat × Nat)
  /-- The workers whose job was over, with the numbers of the jobs and their outcomes. -/
  returned : List ((Nat × Nat) × Except ε Unit)

/-- The history after a move of the pool `p`. -/
def History.after (work : Work ι τ σ ε) (p : Pool ι τ σ ε) (h : History ε) :
    PoolMove → History ε
  | .take worker =>
    match p.queue with
    | (_, index) :: _ => { h with taken := h.taken ++ [(worker, index)] }
    | [] => h
  | .report worker =>
    match p.workers[worker]? with
    | some (.busy index job) =>
      match work.outcome? job with
      | some outcome => { h with returned := h.returned ++ [((worker, index), outcome)] }
      | none => h
    | _ => h
  | _ => h

/-- The pools that the moves of so many workers can reach from the start, with their histories. -/
inductive Runs (work : Work ι τ σ ε) (items : List ι) (workers : Nat) (shared : σ) :
    Pool ι τ σ ε → History ε → Prop
  | start : Runs work items workers shared (.start items workers shared) ⟨[], []⟩
  | move {p q : Pool ι τ σ ε} {h : History ε} (m : PoolMove)
      (before : Runs work items workers shared p h) (possible : p.move? work m = some q) :
      Runs work items workers shared q (h.after work p m)

/-- A pool has come to its end: every item was sent and taken, and every worker has left. -/
def Over (p : Pool ι τ σ ε) : Prop :=
  p.unsent = [] ∧ p.queue = [] ∧ ∀ worker ∈ p.workers, worker = .gone

instance (worker : Worker τ) : Decidable (worker = .gone) :=
  match worker with
  | .gone => isTrue rfl
  | .idle => isFalse nofun
  | .busy .. => isFalse nofun

instance (p : Pool ι τ σ ε) : Decidable p.Over :=
  decidable_of_iff (p.unsent.isEmpty ∧ p.queue.isEmpty ∧ ∀ worker ∈ p.workers, worker = .gone) <| by
    simp only [List.isEmpty_iff, Over]

/-- The failure of a job that has come back, with the number of the job. -/
def failure? (x : (Nat × Nat) × Except ε Unit) : Option (ε × Nat) :=
  match x.2 with
  | .ok () => none
  | .error e => some (e, x.1.2)

/-! ## What a move does -/

theorem move?_send (h : p.move? work .send = some q) :
    ∃ item rest, p.unsent = item :: rest ∧ p.queue.length < p.workers.length ∧
      q = { p with unsent := rest, queue := p.queue ++ [item] } := by
  simp only [move?] at h
  split at h
  · cases h
  · next item rest hu =>
    split at h
    · next hroom => cases h; exact ⟨item, rest, hu, hroom, rfl⟩
    · cases h

theorem move?_take {worker : Nat} (h : p.move? work (.take worker) = some q) :
    ∃ item index rest, p.workers[worker]? = some .idle ∧ p.queue = (item, index) :: rest ∧
      q = { p with
        queue := rest, workers := p.workers.set worker (.busy index (work.begin item)) } := by
  simp only [move?] at h
  split at h
  · next item index rest hw hq => cases h; exact ⟨item, index, rest, hw, hq, rfl⟩
  · cases h

theorem move?_advance {worker : Nat} (h : p.move? work (.advance worker) = some q) :
    ∃ index job, p.workers[worker]? = some (.busy index job) ∧ work.outcome? job = none ∧
      q = { p with
        workers := p.workers.set worker (.busy index (work.advance job p.shared).1)
        shared := (work.advance job p.shared).2 } := by
  simp only [move?] at h
  split at h
  · next index job hw =>
    split at h
    · cases h
    · next hout => cases h; exact ⟨index, job, hw, hout, rfl⟩
  · cases h

theorem move?_report {worker : Nat} (h : p.move? work (.report worker) = some q) :
    ∃ index job outcome, p.workers[worker]? = some (.busy index job) ∧
      work.outcome? job = some outcome ∧
      q = { p with
        workers := p.workers.set worker .idle
        failures := reported p.failures index outcome } := by
  simp only [move?] at h
  split at h
  · next index job hw =>
    split at h
    · next outcome hout => cases h; exact ⟨index, job, outcome, hw, hout, rfl⟩
    · cases h
  · cases h

theorem move?_leave {worker : Nat} (h : p.move? work (.leave worker) = some q) :
    p.workers[worker]? = some .idle ∧ p.unsent = [] ∧ p.queue = [] ∧
      q = { p with workers := p.workers.set worker .gone } := by
  simp only [move?] at h
  split at h
  · next hw hu hq => cases h; exact ⟨hw, hu, hq, rfl⟩
  · cases h

/-! ## The invariant -/

/-- Where the numbers of the items are (see the module docstring). Jobs are taken in the order of
the items. -/
structure Accounts (work : Work ι τ σ ε) (items : List ι) (workers : Nat) (p : Pool ι τ σ ε)
    (h : History ε) : Prop where
  size : p.workers.length = workers
  rest : p.queue ++ p.unsent = items.zipIdx.drop h.taken.length
  taken : h.taken.map Prod.snd = List.range h.taken.length
  busy : ∀ {worker index job}, p.workers[worker]? = some (.busy index job) →
    (worker, index) ∈ h.taken ∧ (∀ other outcome, ((other, index), outcome) ∉ h.returned) ∧
      ∃ item, items[index]? = some item ∧ work.Reaches item job
  returned : ∀ {worker index outcome}, ((worker, index), outcome) ∈ h.returned →
    (worker, index) ∈ h.taken ∧
      ∃ item job, items[index]? = some item ∧ work.Reaches item job ∧
        work.outcome? job = some outcome
  pending : ∀ {worker index}, (worker, index) ∈ h.taken →
    (∃ outcome, ((worker, index), outcome) ∈ h.returned) ∨
      ∃ job, p.workers[worker]? = some (.busy index job)
  once : (h.returned.map fun x => x.1.2).Nodup
  failures : p.failures = h.returned.filterMap failure?
  gone : .gone ∈ p.workers → p.unsent = [] ∧ p.queue = []

namespace Accounts

variable {h : History ε}

/-- Each index is taken by one worker only. -/
theorem worker_unique (a : Accounts work items workers p h) {v w i : Nat}
    (hv : (v, i) ∈ h.taken) (hw : (w, i) ∈ h.taken) : v = w := by
  have hnodup : (h.taken.map Prod.snd).Nodup := a.taken ▸ List.nodup_range
  have := List.inj_on_of_nodup_map hnodup hv hw rfl
  exact congrArg Prod.fst this

theorem start : Accounts work items workers (.start items workers shared) ⟨[], []⟩ := by
  have hidle : ∀ {i : Nat} {w : Worker τ}, (List.replicate workers .idle)[i]? = some w →
      w = .idle := by
    intro i w hw
    rw [List.getElem?_replicate] at hw
    split at hw
    · exact (Option.some.inj hw).symm
    · cases hw
  refine ⟨List.length_replicate, rfl, rfl, fun hw => ?_, fun hw => ?_, fun hw => ?_, ?_, rfl, ?_⟩
  · cases hidle hw
  · cases hw
  · cases hw
  · exact List.nodup_nil
  · intro hgone
    cases (List.mem_replicate.1 hgone).2

/-- Sending an item moves it from the end of what is left to the end of the queue. -/
theorem send (a : Accounts work items workers p h) (hm : p.move? work .send = some q) :
    Accounts work items workers q (h.after work p .send) := by
  obtain ⟨item, rest, hu, -, rfl⟩ := move?_send hm
  refine { a with rest := ?_, gone := fun hgone => ?_ }
  · show (p.queue ++ [item]) ++ rest = items.zipIdx.drop h.taken.length
    rw [← a.rest, hu, List.append_assoc, List.singleton_append]
  · cases hu.symm.trans (a.gone hgone).1

/-- The item at the front of the queue has the number of the jobs taken so far. -/
theorem front (a : Accounts work items workers p h) {item : ι} {index : Nat}
    {rest : List (ι × Nat)} (hq : p.queue = (item, index) :: rest) :
    index = h.taken.length ∧ items[index]? = some item ∧
      rest ++ p.unsent = items.zipIdx.drop (h.taken.length + 1) := by
  have hrest := a.rest
  rw [hq, List.cons_append] at hrest
  have hhead : items.zipIdx[h.taken.length]? = some (item, index) := by
    rw [← List.head?_drop, ← hrest, List.head?_cons]
  rw [List.getElem?_zipIdx, Option.map_eq_some_iff] at hhead
  obtain ⟨item', hitem, heq⟩ := hhead
  simp only [Prod.mk.injEq, Nat.zero_add] at heq
  obtain ⟨rfl, rfl⟩ := heq
  refine ⟨rfl, hitem, ?_⟩
  rw [← List.tail_drop, ← hrest, List.tail_cons]

theorem take (a : Accounts work items workers p h) {worker : Nat}
    (hm : p.move? work (.take worker) = some q) :
    Accounts work items workers q (h.after work p (.take worker)) := by
  obtain ⟨item, index, rest, hw, hq, rfl⟩ := move?_take hm
  obtain ⟨hindex, hitem, hrest⟩ := a.front hq
  have hafter : h.after work p (.take worker) =
      { h with taken := h.taken ++ [(worker, index)] } := by
    simp only [History.after, hq]
  -- the new number is larger than all numbers taken before, so nothing has come back under it
  have hfresh : ∀ {v : Nat}, (v, index) ∉ h.taken := by
    intro v hv
    have : index ∈ h.taken.map Prod.snd := List.mem_map_of_mem (f := Prod.snd) hv
    rw [a.taken, List.mem_range] at this
    omega
  rw [hafter]
  refine ⟨?_, ?_, ?_, fun {v i job} hv => ?_, fun hret => ?_, fun {v i} hv => ?_, a.once,
    a.failures, fun hgone => ?_⟩
  · simpa using a.size
  · simpa using hrest
  · rw [List.map_append, a.taken, List.length_append, List.length_singleton, List.range_succ,
      hindex]
    rfl
  · rw [List.getElem?_set] at hv
    split at hv
    · next heq =>
      subst heq
      split at hv
      · cases hv
        exact ⟨List.mem_append_right _ List.mem_cons_self,
          fun v o ho => hfresh (a.returned ho).1, item, hitem, .begin⟩
      · cases hv
    · obtain ⟨hmem, hrest⟩ := a.busy hv
      exact ⟨List.mem_append_left _ hmem, hrest⟩
  · obtain ⟨hmem, hjob⟩ := a.returned hret
    exact ⟨List.mem_append_left _ hmem, hjob⟩
  · obtain hv | hv := List.mem_append.1 hv
    · obtain hret | ⟨job, hjob⟩ := a.pending hv
      · exact .inl hret
      · have hne : worker ≠ v := fun heq => by rw [← heq, hw] at hjob; cases hjob
        exact .inr ⟨job, by rw [List.getElem?_set_ne hne]; exact hjob⟩
    · obtain ⟨rfl, rfl⟩ := Prod.mk.inj (List.mem_singleton.1 hv)
      refine .inr ⟨work.begin item, ?_⟩
      rw [List.getElem?_set_self]
      exact (List.getElem?_eq_some_iff.1 hw).1
  · obtain hgone | hgone := List.mem_or_eq_of_mem_set hgone
    · cases hq.symm.trans (a.gone hgone).2
    · cases hgone

theorem advance (a : Accounts work items workers p h) {worker : Nat}
    (hm : p.move? work (.advance worker) = some q) :
    Accounts work items workers q (h.after work p (.advance worker)) := by
  obtain ⟨index, job, hw, hout, rfl⟩ := move?_advance hm
  obtain ⟨hmem, hnot, item, hitem, hreach⟩ := a.busy hw
  refine { a with size := ?_, busy := fun {v i job} hv => ?_, pending := fun {v i} hv => ?_
                  gone := fun hgone => ?_ }
  · simpa using a.size
  · rw [List.getElem?_set] at hv
    split at hv
    · next heq =>
      subst heq
      split at hv
      · cases hv
        exact ⟨hmem, hnot, item, hitem, .advance _ hreach hout⟩
      · cases hv
    · exact a.busy hv
  · obtain hret | ⟨job', hjob⟩ := a.pending hv
    · exact .inl hret
    · by_cases heq : worker = v
      · subst heq
        cases hw.symm.trans hjob
        refine .inr ⟨(work.advance job p.shared).1, ?_⟩
        rw [List.getElem?_set_self]
        exact (List.getElem?_eq_some_iff.1 hw).1
      · exact .inr ⟨job', by rw [List.getElem?_set_ne heq]; exact hjob⟩
  · obtain hgone | hgone := List.mem_or_eq_of_mem_set hgone
    · exact a.gone hgone
    · cases hgone

theorem report (a : Accounts work items workers p h) {worker : Nat}
    (hm : p.move? work (.report worker) = some q) :
    Accounts work items workers q (h.after work p (.report worker)) := by
  obtain ⟨index, job, outcome, hw, hout, rfl⟩ := move?_report hm
  obtain ⟨hmem, hnot, item, hitem, hreach⟩ := a.busy hw
  have hafter : h.after work p (.report worker) =
      { h with returned := h.returned ++ [((worker, index), outcome)] } := by
    simp only [History.after, hw, hout]
  rw [hafter]
  refine ⟨?_, a.rest, a.taken, fun {v i job'} hv => ?_, fun {v i o} hret => ?_,
    fun {v i} hv => ?_, ?_, ?_, fun hgone => ?_⟩
  · simpa using a.size
  · -- another worker is busy with another number, since this one was taken once
    rw [List.getElem?_set] at hv
    split at hv
    · split at hv
      · cases hv
      · cases hv
    · next hne =>
      obtain ⟨hmem', hnot', hjob⟩ := a.busy hv
      refine ⟨hmem', fun other o ho => ?_, hjob⟩
      obtain ho | ho := List.mem_append.1 ho
      · exact hnot' other o ho
      · simp only [List.mem_singleton, Prod.mk.injEq] at ho
        obtain ⟨⟨-, rfl⟩, -⟩ := ho
        exact hne (a.worker_unique hmem hmem')
  · obtain hret | hret := List.mem_append.1 hret
    · exact a.returned hret
    · simp only [List.mem_singleton, Prod.mk.injEq] at hret
      obtain ⟨⟨rfl, rfl⟩, rfl⟩ := hret
      exact ⟨hmem, item, job, hitem, hreach, hout⟩
  · obtain ⟨o, ho⟩ | ⟨job', hjob⟩ := a.pending hv
    · exact .inl ⟨o, List.mem_append_left _ ho⟩
    · by_cases heq : worker = v
      · subst heq
        cases hw.symm.trans hjob
        exact .inl ⟨outcome, List.mem_append_right _ List.mem_cons_self⟩
      · exact .inr ⟨job', by rw [List.getElem?_set_ne heq]; exact hjob⟩
  · rw [List.map_append, List.nodup_append]
    refine ⟨a.once, List.nodup_singleton _, fun i hi j hj => ?_⟩
    rw [List.map_singleton, List.mem_singleton] at hj
    rintro rfl
    obtain ⟨⟨⟨v, i⟩, o⟩, hv, rfl⟩ := List.mem_map.1 hi
    simp only at hj
    exact hnot v o (hj ▸ hv)
  · cases outcome with
    | ok u => simp [reported, failure?, a.failures]
    | error e => simp [reported, failure?, a.failures]
  · obtain hgone | hgone := List.mem_or_eq_of_mem_set hgone
    · exact a.gone hgone
    · cases hgone

theorem leave (a : Accounts work items workers p h) {worker : Nat}
    (hm : p.move? work (.leave worker) = some q) :
    Accounts work items workers q (h.after work p (.leave worker)) := by
  obtain ⟨hw, hu, hq, rfl⟩ := move?_leave hm
  refine { a with size := ?_, busy := fun {v i job} hv => ?_, pending := fun {v i} hv => ?_
                  gone := fun _ => ⟨hu, hq⟩ }
  · simpa using a.size
  · rw [List.getElem?_set] at hv
    split at hv
    · split at hv
      · cases hv
      · cases hv
    · exact a.busy hv
  · obtain hret | ⟨job, hjob⟩ := a.pending hv
    · exact .inl hret
    · have hne : worker ≠ v := fun heq => by rw [← heq, hw] at hjob; cases hjob
      exact .inr ⟨job, by rw [List.getElem?_set_ne hne]; exact hjob⟩

/-- Every move keeps the accounts. -/
theorem move (a : Accounts work items workers p h) (m : PoolMove)
    (hm : p.move? work m = some q) : Accounts work items workers q (h.after work p m) := by
  cases m with
  | send => exact a.send hm
  | take worker => exact a.take hm
  | advance worker => exact a.advance hm
  | report worker => exact a.report hm
  | leave worker => exact a.leave hm

end Accounts

/-! ## What holds however the moves interleave -/

namespace Runs

variable {h : History ε}

theorem accounts (r : Runs work items workers shared p h) : Accounts work items workers p h := by
  induction r with
  | start => exact .start
  | move m _ hm ih => exact ih.move m hm

/-- A pool of at least one worker that is not over has a move. -/
theorem exists_move (r : Runs work items workers shared p h) (hworkers : 0 < workers)
    (hover : ¬ p.Over) : ∃ m q, p.move? work m = some q := by
  have a := r.accounts
  by_cases hbusy : ∃ (w i : Nat) (job : τ), p.workers[w]? = some (Worker.busy i job)
  · -- a busy worker can go on, or report
    obtain ⟨w, i, job, hw⟩ := hbusy
    cases hout : work.outcome? job with
    | none => exact ⟨.advance w, _, by simp only [move?, hw, hout]; rfl⟩
    | some outcome => exact ⟨.report w, _, by simp only [move?, hw, hout]; rfl⟩
  · by_cases hidle : ∃ w : Nat, p.workers[w]? = some Worker.idle
    · obtain ⟨w, hw⟩ := hidle
      cases hq : p.queue with
      | cons item rest => exact ⟨.take w, _, by simp only [move?, hw, hq]; rfl⟩
      | nil =>
        cases hu : p.unsent with
        | nil => exact ⟨.leave w, _, by simp only [move?, hw, hu, hq]; rfl⟩
        | cons item rest =>
          have hroom : p.queue.length < p.workers.length := by
            rw [hq, a.size]; exact hworkers
          exact ⟨.send, _, by simp only [move?, hu, hroom, if_true]; rfl⟩
    · -- all workers have left, which they do only when nothing is left to come
      have hgone : ∀ worker ∈ p.workers, worker = .gone := by
        intro worker hmem
        obtain ⟨w, hw⟩ := List.mem_iff_getElem?.1 hmem
        cases worker with
        | idle => exact absurd ⟨w, hw⟩ hidle
        | busy i job => exact absurd ⟨w, i, job, hw⟩ hbusy
        | gone => rfl
      have hsome : .gone ∈ p.workers := by
        cases hp : p.workers with
        | nil =>
          have hsize := a.size
          rw [hp, List.length_nil] at hsize
          omega
        | cons worker rest =>
          rw [hp] at hgone
          rw [← hgone worker List.mem_cons_self]
          exact List.mem_cons_self
      exact absurd ⟨(a.gone hsome).1, (a.gone hsome).2, hgone⟩ hover

/-- At the end, the jobs have been taken in the order of the items. -/
theorem taken_of_over (r : Runs work items workers shared p h) (hover : p.Over) :
    h.taken.map Prod.snd = List.range items.length := by
  have a := r.accounts
  have hrest := a.rest
  rw [hover.1, hover.2.1, List.append_nil] at hrest
  have hle : items.length ≤ h.taken.length := by
    have := List.drop_eq_nil_iff.1 hrest.symm
    rwa [List.length_zipIdx] at this
  have hge : h.taken.length ≤ items.length := by
    by_contra hlt
    -- the last job taken would have a number without an item
    have hlast : h.taken.length - 1 ∈ h.taken.map Prod.snd := by
      rw [a.taken, List.mem_range]; omega
    obtain ⟨⟨w, i⟩, hmem, hi⟩ := List.mem_map.1 hlast
    have hnone : items[i]? = none := by
      rw [List.getElem?_eq_none_iff]; simp only at hi; omega
    obtain ⟨o, ho⟩ | ⟨job, hjob⟩ := a.pending hmem
    · obtain ⟨-, item, -, hitem, -⟩ := a.returned ho
      rw [hnone] at hitem; cases hitem
    · obtain ⟨-, -, item, hitem, -⟩ := a.busy hjob
      rw [hnone] at hitem; cases hitem
  rw [a.taken, Nat.le_antisymm hge hle]

/-- At the end, each job that was taken has come back. -/
theorem exists_returned (r : Runs work items workers shared p h) (hover : p.Over) {w i : Nat}
    (hmem : (w, i) ∈ h.taken) : ∃ outcome, ((w, i), outcome) ∈ h.returned := by
  obtain hret | ⟨job, hjob⟩ := r.accounts.pending hmem
  · exact hret
  · cases hover.2.2 _ (List.mem_of_getElem? hjob)

/-- A job comes back with one outcome. -/
theorem outcome_unique (r : Runs work items workers shared p h) {v w i : Nat}
    {o₁ o₂ : Except ε Unit} (h₁ : ((v, i), o₁) ∈ h.returned) (h₂ : ((w, i), o₂) ∈ h.returned) :
    v = w ∧ o₁ = o₂ := by
  have heq := List.inj_on_of_nodup_map r.accounts.once h₁ h₂ rfl
  simp only [Prod.mk.injEq, and_true] at heq
  exact heq

end Runs

/-! ## Every run ends, and `drive` runs to the end -/

/-- There is no endless sequence of moves. -/
theorem move?_wellFounded (work : Work ι τ σ ε) :
    WellFounded fun q p : Pool ι τ σ ε => ∃ m, p.move? work m = some q :=
  Subrelation.wf (fun ⟨_, hm⟩ => rank_move_lt work hm)
    (InvImage.wf (rank work) (Prod.lex Nat.lt_wfRel Nat.lt_wfRel).wf)

/-- A round tries every move that is possible at its beginning. -/
theorem mem_turns {m : PoolMove} (hm : p.move? work m = some q) : m ∈ p.turns := by
  have hworker : ∀ {w : Nat} {state : Worker τ}, p.workers[w]? = some state →
      w ∈ List.range p.workers.length :=
    fun hw => List.mem_range.2 (List.getElem?_eq_some_iff.1 hw).1
  rw [turns, List.mem_flatMap]
  cases m with
  | send =>
    obtain ⟨-, -, -, hroom, -⟩ := move?_send hm
    exact ⟨0, List.mem_range.2 (by omega), by simp⟩
  | take w =>
    obtain ⟨-, -, -, hw, -⟩ := move?_take hm
    exact ⟨w, hworker hw, by simp⟩
  | advance w =>
    obtain ⟨_, _, hw, -⟩ := move?_advance hm
    exact ⟨w, hworker hw, by simp⟩
  | report w =>
    obtain ⟨_, _, _, hw, -⟩ := move?_report hm
    exact ⟨w, hworker hw, by simp⟩
  | leave w =>
    obtain ⟨hw, -⟩ := move?_leave hm
    exact ⟨w, hworker hw, by simp⟩

theorem Runs.attempts {h : History ε} (r : Runs work items workers shared p h)
    (ms : List PoolMove) : ∃ h', Runs work items workers shared (ms.foldl (attempt work) p) h' := by
  induction ms generalizing p h with
  | nil => exact ⟨h, r⟩
  | cons m ms ih =>
    rw [List.foldl_cons, attempt]
    cases hm : p.move? work m with
    | none => exact ih r
    | some q => exact ih (r.move m hm)

/-- The pool and its history after a list of moves, if they are possible one after the other. -/
def play (work : Work ι τ σ ε) : List PoolMove → Pool ι τ σ ε → History ε →
    Option (Pool ι τ σ ε × History ε)
  | [], p, h => some (p, h)
  | m :: ms, p, h => (p.move? work m).bind fun q => play work ms q (h.after work p m)

theorem Runs.play {h h' : History ε} (r : Runs work items workers shared p h) {ms : List PoolMove}
    (played : play work ms p h = some (q, h')) : Runs work items workers shared q h' := by
  induction ms generalizing p h with
  | nil => cases played; exact r
  | cons m ms ih =>
    obtain ⟨p', hm, hrest⟩ := Option.bind_eq_some_iff.1 played
    exact ih (r.move m hm) hrest

/-- A schedule that can be played to an end with some property is a run with this property. -/
theorem exists_runs_of_play (work : Work ι τ σ ε) (items : List ι) (workers : Nat) (shared : σ)
    (ms : List PoolMove) (check : Pool ι τ σ ε → History ε → Bool)
    (played : (play work ms (.start items workers shared) ⟨[], []⟩).any
      (fun x => check x.1 x.2) = true) :
    ∃ p h, Runs work items workers shared p h ∧ check p h = true := by
  obtain ⟨⟨p, h⟩, hplay, hcheck⟩ := Option.any_eq_true .. |>.1 played
  exact ⟨p, h, Runs.start.play hplay, hcheck⟩

/-- `drive` is one of the runs, and it runs to the end. -/
theorem Runs.drive {h : History ε} (r : Runs work items workers shared p h)
    (hworkers : 0 < workers) :
    (∃ h', Runs work items workers shared (p.drive work) h') ∧ (p.drive work).Over := by
  induction p using Pool.drive.induct work generalizing h with
  | case1 p hrest =>
    rw [Pool.drive]
    split
    · refine ⟨⟨h, r⟩, ?_⟩
      by_contra hover
      obtain ⟨m, q, hm⟩ := r.exists_move hworkers hover
      have hnone := List.all_eq_true.1 hrest m (mem_turns hm)
      rw [hm] at hnone
      cases hnone
    · next hgo => rw [hrest] at hgo; cases hgo
  | case2 p hgo ih =>
    rw [Pool.drive]
    split
    · next hrest => rw [hgo] at hrest; cases hrest
    · obtain ⟨h', r'⟩ := r.attempts p.turns
      exact ih r'

/-! ## The failures in their order -/

theorem failuresInOrder_perm (p : Pool ι τ σ ε) :
    (p.failures.mergeSort fun a b => a.2 ≤ b.2).Perm p.failures :=
  List.mergeSort_perm ..

theorem Runs.mem_failures {h : History ε} (r : Runs work items workers shared p h) {e : ε} {i : Nat} :
    (e, i) ∈ p.failures ↔ ∃ w, ((w, i), .error e) ∈ h.returned := by
  rw [r.accounts.failures, List.mem_filterMap]
  constructor
  · rintro ⟨⟨⟨w, j⟩, _ | e'⟩, hmem, heq⟩
    · simp only [failure?, Option.some.injEq, Prod.mk.injEq] at heq
      obtain ⟨rfl, rfl⟩ := heq
      exact ⟨w, hmem⟩
    · cases heq
  · rintro ⟨w, hmem⟩
    exact ⟨_, hmem, rfl⟩

/-- The failures are reported once for each failing job, in the order of the numbers. -/
theorem Runs.failuresInOrder_eq {h : History ε} (r : Runs work items workers shared p h) :
    ∃ failing : List (ε × Nat), p.failuresInOrder = failing.map Prod.fst ∧
      failing.Pairwise (fun a b => a.2 < b.2) ∧
      ∀ e i, (e, i) ∈ failing ↔ ∃ w, ((w, i), .error e) ∈ h.returned := by
  have a := r.accounts
  refine ⟨p.failures.mergeSort fun a b => a.2 ≤ b.2, rfl, ?_, fun e i => ?_⟩
  · have hsorted : (p.failures.mergeSort fun a b => a.2 ≤ b.2).Pairwise fun a b => a.2 ≤ b.2 := by
      have : (p.failures.mergeSort fun a b => a.2 ≤ b.2).Pairwise fun a b =>
          decide (a.2 ≤ b.2) = true := List.pairwise_mergeSort
        (fun a b c hab hbc => by simp only [decide_eq_true_eq] at hab hbc ⊢; omega)
        (fun a b => by simp only [Bool.or_eq_true, decide_eq_true_eq]; omega) p.failures
      exact this.imp fun hab => of_decide_eq_true hab
    have hnodup : (p.failures.map Prod.snd).Nodup := by
      have hsub : (p.failures.map Prod.snd).Sublist (h.returned.map fun x => x.1.2) := by
        rw [a.failures]
        generalize h.returned = l
        induction l with
        | nil => exact .slnil
        | cons x l ih =>
          obtain ⟨⟨w, i⟩, _ | e⟩ := x
          · exact ih.cons_cons i
          · exact ih.cons i
      exact hsub.nodup a.once
    have hne : (p.failures.mergeSort fun a b => a.2 ≤ b.2).Pairwise fun a b => a.2 ≠ b.2 := by
      have := (p.failuresInOrder_perm.map Prod.snd).nodup_iff.2 hnodup
      exact List.pairwise_map.1 this
    exact hsorted.imp₂ (fun _ _ hle hlt => by omega) hne
  · rw [p.failuresInOrder_perm.mem_iff, r.mem_failures]

end Pool

end TwinTrees
