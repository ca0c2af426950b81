import TwinTrees.Proofs.Triple

/-!
# What actions keep, whether or not they succeed

`Action.Always I a Q` is for invariants: started on a disk that satisfies `I`, the action `a` leaves
one that does, also if it fails, and its answer, if there is one, satisfies `Q`. As in the rules for
triples, there is one rule for each way to build an action.
-/

namespace TwinTrees.Action

variable {ε ε' α β γ : Type} {I : Disk → Prop} {a : Action ε α} {Q Q' : α → Prop} {R : β → Prop}

/-- The action keeps `I`, and what it answers satisfies `Q` (see the module docstring). -/
def Always (I : Disk → Prop) (a : Action ε α) (Q : α → Prop) : Prop :=
  ∀ w x w', I w.disk → a.run w = (x, w') → I w'.disk ∧ ∀ y, x = .ok y → Q y

namespace Always

theorem disk (h : Always I a Q) {w : World} (hI : I w.disk) : I (a.run w).2.disk :=
  (h w _ _ hI rfl).1

theorem of_disk (h : ∀ w, I w.disk → I (a.run w).2.disk) : Always I a fun _ => True := by
  rintro w x w' hI hrun
  have hdisk := h w hI
  rw [hrun] at hdisk
  exact ⟨hdisk, fun _ _ => trivial⟩

theorem triple (h : Always I a Q) : Triple I a fun x d => I d ∧ Q x := by
  intro w x w' hI hrun
  obtain ⟨hI', hQ⟩ := h w _ w' hI hrun
  exact ⟨hI', hQ x rfl⟩

theorem post (h : Always I a Q) (hq : ∀ x, Q x → Q' x) : Always I a Q' := fun w x w' hI hrun =>
  let ⟨hI', hQ⟩ := h w x w' hI hrun
  ⟨hI', fun y hy => hq y (hQ y hy)⟩

theorem pure {x : α} (h : Q x) : Always I (Pure.pure x : Action ε α) Q := by
  intro w y w' hI hrun
  cases hrun
  exact ⟨hI, fun y hy => by cases hy; exact h⟩

theorem throw (e : ε) : Always I (throw e : Action ε α) Q := by
  intro w y w' hI hrun
  cases hrun
  exact ⟨hI, nofun⟩

theorem bind {f : α → Action ε β} (h : Always I a Q) (hf : ∀ x, Q x → Always I (f x) R) :
    Always I (a >>= f) R := by
  intro w y w' hI hrun
  rw [run_bind] at hrun
  cases ha : a.run w with
  | mk x v =>
    rw [ha] at hrun
    obtain ⟨hv, hQ⟩ := h w x v hI ha
    cases x with
    | ok x => exact hf x (hQ x rfl) v y w' hv hrun
    | error e => cases hrun; exact ⟨hv, nofun⟩

theorem map {f : α → β} (h : Always I a Q) (hf : ∀ x, Q x → R (f x)) : Always I (f <$> a) R := by
  rw [map_eq_pure_bind]
  exact h.bind fun x hx => pure (hf x hx)

theorem mapError (h : Always I a Q) (f : ε → ε') : Always I (a.mapError f) Q := by
  intro w y w' hI hrun
  rw [run_mapError] at hrun
  cases ha : a.run w with
  | mk x v =>
    rw [ha] at hrun
    obtain ⟨hv, hQ⟩ := h w x v hI ha
    cases hrun
    refine ⟨hv, fun y hy => hQ y ?_⟩
    cases x with
    | ok x => exact congrArg _ (Except.ok.inj hy)
    | error e => cases hy

theorem named {a : Action IoError α} (h : Always I a Q) (request : String) (p : Path) :
    Always I (a.named request p) Q := h.mapError _

theorem ask {f : Disk → Except ε α} (h : ∀ d x, I d → f d = .ok x → Q x) :
    Always I (Action.ask f) Q := by
  intro w x w' hI hrun
  rw [run_ask] at hrun
  obtain ⟨hx, rfl⟩ := Prod.mk.inj hrun
  exact ⟨hI, fun y hy => h _ y hI (hx.trans hy)⟩

theorem request {f : Time → Disk → Except ε (α × Disk)}
    (h : ∀ t d x d', I d → f t d = .ok (x, d') → I d' ∧ Q x) : Always I (Action.request f) Q := by
  intro w x w' hI hrun
  rw [run_request] at hrun
  split at hrun
  · next hf =>
    cases hrun
    obtain ⟨hd, hx⟩ := h _ _ _ _ hI hf
    exact ⟨hd, fun y hy => by cases hy; exact hx⟩
  · cases hrun
    exact ⟨hI, nofun⟩

theorem change {f : Time → Disk → Except ε Disk} {Q : Unit → Prop}
    (h : ∀ t d d', I d → f t d = .ok d' → I d' ∧ Q ()) : Always I (Action.change f) Q := by
  refine request fun t d x d' hI hf => ?_
  cases hd : f t d with
  | error e => rw [hd] at hf; cases hf
  | ok d'' => rw [hd] at hf; cases hf; exact h t d _ hI hd

theorem tryDraw (f : Source → Except ε (α × Source)) :
    Always I (Action.tryDraw f) fun _ => True := by
  refine of_disk fun w hI => ?_
  rw [run_tryDraw]
  cases f w.source <;> exact hI

theorem draw (f : Source → α × Source) : Always (ε := ε) I (Action.draw f) fun _ => True :=
  tryDraw _

/-- A loop keeps what each of its actions keeps. -/
theorem forM {f : γ → Action ε Unit} {l : List γ} (h : ∀ x ∈ l, Always I (f x) fun _ => True) :
    Always I (l.forM f) fun _ => True := by
  induction l with
  | nil => exact pure trivial
  | cons x l ih =>
    show Always _ (f x >>= fun _ => l.forM f) _
    exact (h x List.mem_cons_self).bind fun _ _ => ih fun y hy => h y (List.mem_cons_of_mem _ hy)

/-- Loops whose actions come to the same wherever a condition holds that they keep. -/
theorem run_forM_congr {f g : γ → Action ε Unit} {l : List γ} {w : World}
    (same : ∀ x ∈ l, ∀ w, I w.disk → (f x).run w = (g x).run w)
    (kept : ∀ x ∈ l, Always I (f x) fun _ => True) (hI : I w.disk) :
    (l.forM f).run w = (l.forM g).run w := by
  induction l generalizing w with
  | nil => rfl
  | cons x l ih =>
    show (f x >>= fun _ => l.forM f).run w = (g x >>= fun _ => l.forM g).run w
    rw [run_bind, run_bind, ← same x List.mem_cons_self w hI]
    have hdisk := (kept x List.mem_cons_self).disk hI
    generalize (f x).run w = y at hdisk ⊢
    obtain ⟨y, v⟩ := y
    cases y with
    | error e => rfl
    | ok y =>
      exact ih (fun y hy => same y (List.mem_cons_of_mem x hy))
        (fun y hy => kept y (List.mem_cons_of_mem x hy)) hdisk

/-- Writing an event changes the log file only, if the log is in a file. -/
theorem write {env : Environment} {e : Event}
    (h : ∀ path f, env.sink = .file path f → ∀ t d bytes, I d → I (d.append t f bytes)) :
    Always (ε := ε) I (env.write e) fun _ => True := by
  refine of_disk fun w hI => ?_
  unfold Environment.write
  rw [LogSink.run_write]
  cases hsink : env.sink with
  | console => exact hI
  | file path f => exact h path f hsink _ _ _ hI

end Always

end TwinTrees.Action
