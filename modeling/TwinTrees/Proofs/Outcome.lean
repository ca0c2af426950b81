import TwinTrees.Proofs.Always

/-!
# What actions leave

`Action.Leaves P a Q E` speaks of both outcomes of an action: started on a disk that satisfies `P`, the
action `a` succeeds, and then its answer and the disk it leaves satisfy `Q`, or it fails, and then the
disk satisfies `E`. It is the triple for `Q` together with the invariant `E`, for actions that leave
something weaker behind when they stop on the way. There is one rule for each way to build an action,
as for triples.
-/

namespace TwinTrees.Action

variable {ε ε' α β γ : Type} {P P' E E' : Disk → Prop} {a : Action ε α} {Q Q' : α → Disk → Prop}
  {R : β → Disk → Prop}

/-- From `P` the action leads to `Q`, or fails and leads to `E` (see the module docstring). -/
structure Leaves (P : Disk → Prop) (a : Action ε α) (Q : α → Disk → Prop) (E : Disk → Prop) : Prop where
  succeeds : ∀ w x w', P w.disk → a.run w = (.ok x, w') → Q x w'.disk
  fails : ∀ w e w', P w.disk → a.run w = (.error e, w') → E w'.disk

namespace Leaves

theorem disk (h : Leaves P a (fun _ => E) E) {w : World} (hP : P w.disk) : E (a.run w).2.disk := by
  cases hrun : a.run w with
  | mk x w' =>
    cases x with
    | ok x => exact h.succeeds w x w' hP hrun
    | error e => exact h.fails w e w' hP hrun

theorem mono (h : Leaves P a Q E) (hp : ∀ d, P' d → P d) (hq : ∀ x d, Q x d → Q' x d)
    (he : ∀ d, E d → E' d) : Leaves P' a Q' E' where
  succeeds w x w' hP hrun := hq _ _ (h.succeeds w x w' (hp _ hP) hrun)
  fails w e w' hP hrun := he _ (h.fails w e w' (hp _ hP) hrun)

theorem pre (h : Leaves P a Q E) (hp : ∀ d, P' d → P d) : Leaves P' a Q E :=
  h.mono hp (fun _ _ => id) fun _ => id

theorem post (h : Leaves P a Q E) (hq : ∀ x d, Q x d → Q' x d) : Leaves P a Q' E :=
  h.mono (fun _ => id) hq fun _ => id

/-- What a condition on the disk says about other things is known. -/
theorem given {φ : Prop} (hp : ∀ d, P d → φ) (h : φ → Leaves P a Q E) : Leaves P a Q E where
  succeeds w x w' hP := (h (hp _ hP)).succeeds w x w' hP
  fails w e w' hP := (h (hp _ hP)).fails w e w' hP

/-- An action that keeps a condition in any case. -/
theorem of_always {q : α → Prop} (h : Always P a q) (hq : ∀ x d, P d → q x → Q x d)
    (he : ∀ d, P d → E d) : Leaves P a Q E where
  succeeds w x w' hP hrun :=
    let ⟨hP', hx⟩ := h w _ w' hP hrun
    hq x _ hP' (hx x rfl)
  fails w _ w' hP hrun := he _ (h w _ w' hP hrun).1

/-- An action for whose success there is a triple, and which keeps a condition in any case. -/
theorem of_triple {I : Disk → Prop} {q : α → Prop} (h : Triple P a Q) (kept : Always I a q)
    (hp : ∀ d, P d → I d) (he : ∀ d, I d → E d) : Leaves P a Q E where
  succeeds := h
  fails w _ w' hP hrun := he _ (kept w _ w' (hp _ hP) hrun).1

theorem pure {x : α} (h : ∀ d, P d → Q x d) : Leaves P (Pure.pure x : Action ε α) Q E where
  succeeds w y w' hP hrun := by cases hrun; exact h _ hP
  fails := nofun

theorem throw {e : ε} (h : ∀ d, P d → E d) : Leaves P (throw e : Action ε α) Q E where
  succeeds := nofun
  fails w _ w' hP hrun := by cases hrun; exact h _ hP

theorem bind {f : α → Action ε β} (h : Leaves P a Q E) (hf : ∀ x, Leaves (Q x) (f x) R E) :
    Leaves P (a >>= f) R E where
  succeeds w y w' hP hrun := by
    obtain ⟨x, v, ha, hrest⟩ := of_run_bind hrun
    exact (hf x).succeeds v y w' (h.succeeds w x v hP ha) hrest
  fails w e w' hP hrun := by
    rw [run_bind] at hrun
    cases ha : a.run w with
    | mk x v =>
      rw [ha] at hrun
      cases x with
      | ok x => exact (hf x).fails v e w' (h.succeeds w x v hP ha) hrun
      | error e' => cases hrun; exact h.fails w _ _ hP ha

theorem mapError (h : Leaves P a Q E) (f : ε → ε') : Leaves P (a.mapError f) Q E where
  succeeds w x w' hP hrun := h.succeeds w x w' hP (of_run_mapError hrun)
  fails w e w' hP hrun := by
    rw [run_mapError] at hrun
    cases ha : a.run w with
    | mk x v =>
      rw [ha] at hrun
      cases x with
      | ok x => cases hrun
      | error e' => cases hrun; exact h.fails w _ _ hP ha

theorem named {a : Action IoError α} (h : Leaves P a Q E) (request : String) (p : Path) :
    Leaves P (a.named request p) Q E := h.mapError _

theorem ask {f : Disk → Except ε α} (h : ∀ d x, P d → f d = .ok x → Q x d)
    (he : ∀ d, P d → E d) : Leaves P (Action.ask f) Q E where
  succeeds w x w' hP hrun := by
    rw [run_ask] at hrun
    obtain ⟨hx, rfl⟩ := Prod.mk.inj hrun
    exact h _ x hP hx
  fails w e w' hP hrun := by
    rw [run_ask] at hrun
    obtain ⟨-, rfl⟩ := Prod.mk.inj hrun
    exact he _ hP

theorem request {f : Time → Disk → Except ε (α × Disk)}
    (h : ∀ t d x d', P d → f t d = .ok (x, d') → Q x d') (he : ∀ d, P d → E d) :
    Leaves P (Action.request f) Q E where
  succeeds w x w' hP hrun := by
    obtain ⟨d, hf, rfl⟩ := of_run_request hrun
    exact h _ _ _ _ hP hf
  fails w e w' hP hrun := by
    rw [run_request] at hrun
    split at hrun
    · cases hrun
    · cases hrun
      exact he _ hP

theorem change {f : Time → Disk → Except ε Disk} {Q : Unit → Disk → Prop}
    (h : ∀ t d d', P d → f t d = .ok d' → Q () d') (he : ∀ d, P d → E d) :
    Leaves P (Action.change f) Q E := by
  refine request (fun t d x d' hP hf => ?_) he
  cases hd : f t d with
  | error e => rw [hd] at hf; cases hf
  | ok d'' => rw [hd] at hf; cases hf; exact h t d _ hP hd

/-- A loop keeps a condition that may depend on what is left to do. -/
theorem forM {f : γ → Action ε Unit} {l : List γ} {I : List γ → Disk → Prop}
    (h : ∀ x rest, x :: rest <:+ l → Leaves (I (x :: rest)) (f x) (fun _ => I rest) E) :
    Leaves (I l) (l.forM f) (fun _ => I []) E := by
  induction l with
  | nil => exact pure fun _ => id
  | cons x l ih =>
    show Leaves _ (f x >>= fun _ => l.forM f) _ _
    exact (h x l List.suffix_rfl).bind fun _ =>
      ih fun y rest hy => h y rest (hy.trans (List.suffix_cons x l))

end Leaves

end TwinTrees.Action
