/-!
# A pool of workers

A pool runs numbered jobs. A sender puts them into a queue in order, as long as the queue has room;
each worker takes a job from the front of the queue, advances it step by step to its end, reports
its failure if it failed, and takes the next one, until nothing is left to come. All jobs act on one
shared state.

What the pool does next is not determined: any move that `Pool.move?` allows may come next, and the
moves of different workers interleave freely. Each move makes the pool's `rank` smaller, so every
sequence of moves ends. `Pool.drive` picks one sequence, in which the workers take turns and each
does one thing at its turn.
-/

namespace TwinTrees

/-- A kind of job: what it starts from, how it advances and when it is over. -/
structure Work (ι τ σ ε : Type) where
  begin : ι → τ
  advance : τ → σ → τ × σ
  outcome? : τ → Option (Except ε Unit)
  /-- What is left of a job; it gets less with every step. -/
  rank : τ → Nat × Nat
  rank_begin_le : ∀ item, (rank (begin item)).1 ≤ 1
  rank_advance_lt : ∀ job state, outcome? job = none →
    Prod.Lex (· < ·) (· < ·) (rank (advance job state).1) (rank job)

/-- What a worker does. -/
inductive Worker (τ : Type)
  | idle
  | busy (index : Nat) (job : τ)
  | gone
  deriving Repr

/-- A pool at work. -/
structure Pool (ι τ σ ε : Type) where
  /-- The items that are not in the queue yet, with their numbers. -/
  unsent : List (ι × Nat)
  queue : List (ι × Nat)
  workers : List (Worker τ)
  /-- The failures with the numbers of their jobs, as they were reported. -/
  failures : List (ε × Nat)
  shared : σ

/-- What can happen next in a pool. -/
inductive PoolMove
  | send
  | take (worker : Nat)
  | advance (worker : Nat)
  /-- A worker whose job is over reports it. -/
  | report (worker : Nat)
  | leave (worker : Nat)
  deriving DecidableEq, Repr

namespace Pool

variable {ι τ σ ε : Type}

/-- The pool before its first move. -/
def start (items : List ι) (workers : Nat) (shared : σ) : Pool ι τ σ ε where
  unsent := items.zipIdx
  queue := []
  workers := List.replicate workers .idle
  failures := []
  shared := shared

/-- The failures with the one of a job that is over, if it failed. -/
def reported (failures : List (ε × Nat)) (index : Nat) : Except ε Unit → List (ε × Nat)
  | .ok () => failures
  | .error e => failures ++ [(e, index)]

/-- The pool after a move, if the move is possible. The queue holds at most as many items as there
are workers. -/
def move? (work : Work ι τ σ ε) (p : Pool ι τ σ ε) : PoolMove → Option (Pool ι τ σ ε)
  | .send =>
    match p.unsent with
    | [] => none
    | item :: rest =>
      if p.queue.length < p.workers.length then
        some { p with unsent := rest, queue := p.queue ++ [item] }
      else none
  | .take worker =>
    match p.workers[worker]?, p.queue with
    | some .idle, (item, index) :: rest =>
      some { p with
        queue := rest, workers := p.workers.set worker (.busy index (work.begin item)) }
    | _, _ => none
  | .advance worker =>
    match p.workers[worker]? with
    | some (.busy index job) =>
      match work.outcome? job with
      | some _ => none
      | none =>
        let next := work.advance job p.shared
        some { p with workers := p.workers.set worker (.busy index next.1), shared := next.2 }
    | _ => none
  | .report worker =>
    match p.workers[worker]? with
    | some (.busy index job) =>
      match work.outcome? job with
      | some outcome =>
        some { p with
          workers := p.workers.set worker .idle, failures := reported p.failures index outcome }
      | none => none
    | _ => none
  | .leave worker =>
    match p.workers[worker]?, p.unsent, p.queue with
    | some .idle, [], [] => some { p with workers := p.workers.set worker .gone }
    | _, _, _ => none

/-- How much a worker has begun and not ended. -/
def Worker.weight (work : Work ι τ σ ε) : Worker τ → Nat
  | .idle => 1
  | .busy _ job => 1 + (work.rank job).1
  | .gone => 0

/-- How many steps a worker has before it. -/
def Worker.load (work : Work ι τ σ ε) : Worker τ → Nat
  | .busy _ job => (work.rank job).2 + 1
  | _ => 0

/-- The sum of the numbers that `f` gives the members of a list. -/
def total {α : Type} (f : α → Nat) : List α → Nat
  | [] => 0
  | a :: rest => f a + total f rest

/-- How much a pool has to do. -/
def rank (work : Work ι τ σ ε) (p : Pool ι τ σ ε) : Nat × Nat :=
  (3 * p.unsent.length + 2 * p.queue.length + total (Worker.weight work) p.workers,
    total (Worker.load work) p.workers)

theorem total_set {α : Type} (f : α → Nat) (l : List α) (i : Nat) (a b : α)
    (h : l[i]? = some a) :
    total f (l.set i b) + f a = total f l + f b := by
  induction l generalizing i with
  | nil => simp at h
  | cons c rest ih =>
    match i with
    | 0 => simp at h; subst h; simp [total]; omega
    | i + 1 =>
      have := ih i (by simpa using h)
      simp only [List.set_cons_succ, total]
      omega

theorem rank_move_lt (work : Work ι τ σ ε) {p q : Pool ι τ σ ε} {m : PoolMove}
    (h : p.move? work m = some q) : Prod.Lex (· < ·) (· < ·) (q.rank work) (p.rank work) := by
  match m with
  | .send =>
    simp only [move?] at h
    split at h
    · cases h
    · next item rest hu =>
      split at h
      · cases h
        refine Prod.Lex.left _ _ ?_
        simp [hu]
        omega
      · cases h
  | .take worker =>
    simp only [move?] at h
    split at h
    · next item index rest hw hq =>
      cases h
      have hsum := total_set (Worker.weight work) p.workers worker .idle
        (.busy index (work.begin item)) hw
      have hbegin := work.rank_begin_le item
      simp only [Worker.weight] at hsum
      refine Prod.Lex.left _ _ ?_
      simp only [hq, List.length_cons]
      omega
    · cases h
  | .advance worker =>
    simp only [move?] at h
    split at h
    · next index job hw =>
      split at h
      · cases h
      · next hout =>
        cases h
        have hweight := total_set (Worker.weight work) p.workers worker _
          (.busy index (work.advance job p.shared).1) hw
        have hload := total_set (Worker.load work) p.workers worker _
          (.busy index (work.advance job p.shared).1) hw
        have hlt := work.rank_advance_lt job p.shared hout
        rw [Prod.lex_def] at hlt ⊢
        simp only [Worker.weight, Worker.load] at hweight hload
        simp only [rank]
        omega
    · cases h
  | .report worker =>
    simp only [move?] at h
    split at h
    · next index job hw =>
      split at h
      · cases h
        have hweight := total_set (Worker.weight work) p.workers worker _ .idle hw
        have hload := total_set (Worker.load work) p.workers worker _ .idle hw
        simp only [Worker.weight, Worker.load] at hweight hload
        rw [Prod.lex_def]
        simp only [rank]
        omega
      · cases h
    · cases h
  | .leave worker =>
    simp only [move?] at h
    split at h
    · next hw hu hq =>
      cases h
      have hweight := total_set (Worker.weight work) p.workers worker _ .gone hw
      simp only [Worker.weight] at hweight
      refine Prod.Lex.left _ _ ?_
      simp only [hu, hq, List.length_nil]
      omega
    · cases h

/-- The moves that `drive` tries in each round: every worker gets its turn, and before it the
sender. -/
def turns (p : Pool ι τ σ ε) : List PoolMove :=
  (List.range p.workers.length).flatMap fun worker =>
    [.send, .take worker, .advance worker, .report worker, .leave worker]

/-- The pool after a move, or as it is if the move is not possible. -/
def attempt (work : Work ι τ σ ε) (p : Pool ι τ σ ε) (m : PoolMove) : Pool ι τ σ ε :=
  (p.move? work m).getD p

/-- The pool after a round. -/
def round (work : Work ι τ σ ε) (p : Pool ι τ σ ε) : Pool ι τ σ ε :=
  p.turns.foldl (attempt work) p

/-- Whether none of the moves of a round is possible. -/
def atRest (work : Work ι τ σ ε) (p : Pool ι τ σ ε) : Bool :=
  p.turns.all fun m => (p.move? work m).isNone

theorem rank_attempts_le (work : Work ι τ σ ε) (p : Pool ι τ σ ε) (ms : List PoolMove) :
    (ms.foldl (attempt work) p).rank work = p.rank work ∨
      Prod.Lex (· < ·) (· < ·) ((ms.foldl (attempt work) p).rank work) (p.rank work) := by
  induction ms generalizing p with
  | nil => exact .inl rfl
  | cons m ms ih =>
    have hm : attempt work p m = p ∨
        Prod.Lex (· < ·) (· < ·) ((attempt work p m).rank work) (p.rank work) := by
      unfold attempt
      cases h : p.move? work m with
      | none => exact .inl rfl
      | some q => exact .inr (rank_move_lt work h)
    have hms := ih (attempt work p m)
    rw [List.foldl_cons]
    simp only [Prod.lex_def] at hm hms ⊢
    obtain hm | hm := hm
    · rw [hm] at hms ⊢; exact hms
    · obtain hms | hms := hms
      · rw [hms]; exact .inr hm
      · exact .inr (by omega)

theorem rank_round_lt (work : Work ι τ σ ε) {p : Pool ι τ σ ε} (h : p.atRest work = false) :
    Prod.Lex (· < ·) (· < ·) ((p.round work).rank work) (p.rank work) := by
  suffices ∀ ms : List PoolMove, (∃ m ∈ ms, (p.move? work m).isNone = false) →
      Prod.Lex (· < ·) (· < ·) ((ms.foldl (attempt work) p).rank work) (p.rank work) by
    refine this _ ?_
    rw [atRest, List.all_eq_false] at h
    obtain ⟨m, hm, hsome⟩ := h
    exact ⟨m, hm, Bool.eq_false_iff.2 hsome⟩
  intro ms
  induction ms with
  | nil => rintro ⟨m, hm, _⟩; cases hm
  | cons m ms ih =>
    rintro ⟨m', hm', hsome⟩
    rw [List.foldl_cons]
    cases hq : p.move? work m with
    | some q =>
      have hlt := rank_move_lt work hq
      have hle := rank_attempts_le work q ms
      have hstep : attempt work p m = q := by rw [attempt, hq]; rfl
      rw [hstep]
      simp only [Prod.lex_def] at hlt hle ⊢
      obtain hle | hle := hle
      · rw [hle]; exact hlt
      · omega
    | none =>
      have hstep : attempt work p m = p := by rw [attempt, hq]; rfl
      rw [hstep]
      refine ih ⟨m', ?_, hsome⟩
      obtain rfl | hm' := List.mem_cons.1 hm'
      · rw [hq] at hsome; cases hsome
      · exact hm'

/-- The pool when no move is left. -/
def drive (work : Work ι τ σ ε) (p : Pool ι τ σ ε) : Pool ι τ σ ε :=
  match _ : p.atRest work with
  | true => p
  | false => drive work (p.round work)
  termination_by p.rank work
  decreasing_by exact rank_round_lt work (by assumption)

/-- The failures in the order of the items. -/
def failuresInOrder (p : Pool ι τ σ ε) : List ε :=
  (p.failures.mergeSort fun a b => a.2 ≤ b.2).map Prod.fst

end Pool

end TwinTrees
