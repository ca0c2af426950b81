import TwinTrees.Environment
import TwinTrees.Proofs.Action

/-!
# What actions do to the disk when they succeed

`Action.Triple P a Q` is partial correctness: started on a disk that satisfies `P`, the action `a`
fails, or its answer and the disk it leaves satisfy `Q`. Nothing is said about what a failed action
leaves. There is one rule for each way to build an action; requests are asked at any time, so the
rules for them hold for every answer of the clock.
-/

namespace TwinTrees.Action

variable {ε ε' α β γ : Type} {P P' : Disk → Prop} {a : Action ε α} {Q Q' : α → Disk → Prop}
  {R : β → Disk → Prop}

/-- If the action succeeds, it leads from `P` to `Q` (see the module docstring). -/
def Triple (P : Disk → Prop) (a : Action ε α) (Q : α → Disk → Prop) : Prop :=
  ∀ w x w', P w.disk → a.run w = (.ok x, w') → Q x w'.disk

namespace Triple

theorem mono (h : Triple P a Q) (hp : ∀ d, P' d → P d) (hq : ∀ x d, Q x d → Q' x d) :
    Triple P' a Q' := fun w x w' hP hrun => hq _ _ (h w x w' (hp _ hP) hrun)

theorem pre (h : Triple P a Q) (hp : ∀ d, P' d → P d) : Triple P' a Q := h.mono hp fun _ _ => id

theorem post (h : Triple P a Q) (hq : ∀ x d, Q x d → Q' x d) : Triple P a Q' :=
  h.mono (fun _ => id) hq

theorem and (h : Triple P a Q) (h' : Triple P' a Q') :
    Triple (fun d => P d ∧ P' d) a fun x d => Q x d ∧ Q' x d :=
  fun w x w' hP hrun => ⟨h w x w' hP.1 hrun, h' w x w' hP.2 hrun⟩

/-- What a condition on the disk says about other things is known. -/
theorem given {φ : Prop} (hp : ∀ d, P d → φ) (h : φ → Triple P a Q) : Triple P a Q :=
  fun w x w' hP => h (hp _ hP) w x w' hP

/-- What the condition says there is may be fixed. -/
theorem ofExists {ι : Type} {P : ι → Disk → Prop} (h : ∀ i, Triple (P i) a Q) :
    Triple (fun d => ∃ i, P i d) a Q := by
  rintro w x w' ⟨i, hP⟩
  exact h i w x w' hP

theorem pure {x : α} (h : ∀ d, P d → Q x d) : Triple P (Pure.pure x : Action ε α) Q := by
  intro w y w' hP hrun
  cases hrun
  exact h _ hP

theorem throw (e : ε) : Triple P (throw e : Action ε α) Q := nofun

theorem bind {f : α → Action ε β} (h : Triple P a Q) (hf : ∀ x, Triple (Q x) (f x) R) :
    Triple P (a >>= f) R := by
  intro w y w' hP hrun
  rw [run_bind] at hrun
  cases ha : a.run w with
  | mk x v =>
    rw [ha] at hrun
    cases x with
    | ok x => exact hf x v y w' (h w x v hP ha) hrun
    | error e => cases hrun

theorem map {f : α → β} (h : Triple P a Q) (hf : ∀ x d, Q x d → R (f x) d) :
    Triple P (f <$> a) R := by
  rw [map_eq_pure_bind]
  exact h.bind fun x => pure fun d => hf x d

theorem mapError (h : Triple P a Q) (f : ε → ε') : Triple P (a.mapError f) Q := by
  intro w y w' hP hrun
  rw [run_mapError] at hrun
  cases ha : a.run w with
  | mk x v =>
    rw [ha] at hrun
    cases x with
    | ok x => cases hrun; exact h w _ _ hP ha
    | error e => cases hrun

theorem named {a : Action IoError α} (h : Triple P a Q) (request : String) (p : Path) :
    Triple P (a.named request p) Q := h.mapError _

theorem ask {f : Disk → Except ε α} (h : ∀ d x, P d → f d = .ok x → Q x d) :
    Triple P (Action.ask f) Q := by
  intro w x w' hP hrun
  rw [run_ask] at hrun
  obtain ⟨hx, rfl⟩ := Prod.mk.inj hrun
  exact h _ x hP hx

/-- What does not depend on the disk leaves the condition on it. -/
theorem bindConst {x : Except ε α} {f : α → Action ε β}
    (h : ∀ y, x = .ok y → Triple P (f y) R) : Triple P (Action.ask (fun _ => x) >>= f) R :=
  bind (Q := fun y d => x = .ok y ∧ P d) (ask fun _ _ hP hx => ⟨hx, hP⟩) fun y =>
    given (fun _ h => h.1) fun hx => (h y hx).pre fun _ h => h.2

theorem request {f : Time → Disk → Except ε (α × Disk)}
    (h : ∀ t d x d', P d → f t d = .ok (x, d') → Q x d') : Triple P (Action.request f) Q := by
  intro w x w' hP hrun
  rw [run_request] at hrun
  split at hrun
  · next hf =>
    cases hrun
    exact h _ _ _ _ hP hf
  · cases hrun

theorem change {f : Time → Disk → Except ε Disk} {Q : Unit → Disk → Prop}
    (h : ∀ t d d', P d → f t d = .ok d' → Q () d') : Triple P (Action.change f) Q := by
  refine request fun t d x d' hP hf => ?_
  cases hd : f t d with
  | error e => rw [hd] at hf; cases hf
  | ok d'' => rw [hd] at hf; cases hf; exact h t d _ hP hd

theorem now : Triple (ε := ε) P Action.now fun _ => P := by
  intro w x w' hP hrun
  rw [run_now] at hrun
  cases hrun
  exact hP

theorem tryDraw (f : Source → Except ε (α × Source)) :
    Triple P (Action.tryDraw f) fun _ => P := by
  intro w x w' hP hrun
  rw [run_tryDraw] at hrun
  split at hrun
  · cases hrun; exact hP
  · cases hrun

theorem draw (f : Source → α × Source) : Triple (ε := ε) P (Action.draw f) fun _ => P := tryDraw _

/-- A loop keeps a condition that may depend on what is left to do. -/
theorem forM {f : γ → Action ε Unit} {l : List γ} {I : List γ → Disk → Prop}
    (h : ∀ x rest, x :: rest <:+ l → Triple (I (x :: rest)) (f x) fun _ => I rest) :
    Triple (I l) (l.forM f) fun _ => I [] := by
  induction l with
  | nil => exact pure fun _ => id
  | cons x l ih =>
    show Triple _ (f x >>= fun _ => l.forM f) _
    exact (h x l List.suffix_rfl).bind fun _ =>
      ih fun y rest hy => h y rest (hy.trans (List.suffix_cons x l))

/-- A loop keeps what each of its actions keeps. -/
theorem forM_keeps {f : γ → Action ε Unit} {l : List γ} (h : ∀ x ∈ l, Triple P (f x) fun _ => P) :
    Triple P (l.forM f) fun _ => P :=
  forM (I := fun _ => P) fun x _ hx => h x (hx.subset List.mem_cons_self)

/-- A loop over one list after another. -/
theorem forM_append {f : γ → Action ε Unit} {l l' : List γ} {Q Q' : Unit → Disk → Prop}
    (h : Triple P (l.forM f) Q) (h' : ∀ x, Triple (Q x) (l'.forM f) Q') :
    Triple P ((l ++ l').forM f) Q' := by
  rw [show (l ++ l').forM f = l.forM f >>= fun _ => l'.forM f from List.forM_append]
  exact h.bind h'

/-- Writing an event changes the log file only, if the log is in a file. -/
theorem write {env : Environment} {e : Event}
    (h : ∀ path f, env.sink = .file path f → ∀ t d bytes, P d → P (d.append t f bytes)) :
    Triple (ε := ε) P (env.write e) fun _ => P := by
  intro w x w' hP hrun
  unfold Environment.write at hrun
  rw [LogSink.run_write] at hrun
  cases hrun
  cases hsink : env.sink with
  | console => exact hP
  | file path f => exact h path f hsink _ _ _ hP

end Triple

end TwinTrees.Action
