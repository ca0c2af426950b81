import TwinTrees.Proofs.Action
import TwinTrees.Proofs.Site.Files

/-!
# Actions in two worlds that look the same to a test

`Site.Agrees P a b Q` relates two actions, in the manner of a Hoare triple: started in worlds that
look the same to the test and whose disks satisfy `P`, they end with the same error, or with answers
related by `Q`; the worlds then look the same again, and on both disks nothing has changed but what
the test owns. There is one rule for each way to build an action.

Started twice in one world, an action agrees with itself only if it leaves everything else alone;
so the rules prove at once that a test does not touch what is not its own, and that it does not
notice it.
-/

namespace TwinTrees.Site

/-- The environments of one test in two runs. -/
structure SameEnv (s : Site) (times : Bool) (env₁ env₂ : Environment) : Prop where
  name : env₁.name = env₂.name
  root : env₁.root = env₂.root
  lhs : env₁.lhs = env₂.lhs
  rhs : env₁.rhs = env₂.rhs
  workers : env₁.workers = env₂.workers
  start : times = true → env₁.start = env₂.start
  leads : ∀ side, s.Leads (env₁.side side)
  sink : env₁.sink = .console ∧ env₂.sink = .console ∨
    ∃ path f g, env₁.sink = .file path f ∧ env₂.sink = .file path g ∧
      f.location = s.log ∧ g.location = s.log

/-- The log file of the environment, if there is one, is in its place. -/
def HoldsLog (env : Environment) (d : Disk) : Prop :=
  ∀ path f, env.sink = .file path f → d.Holds f

/-- Two worlds that look the same to a test. -/
structure SameWorld (s : Site) (times : Bool) (env₁ env₂ : Environment) (w₁ w₂ : World) :
    Prop where
  env : s.SameEnv times env₁ env₂
  twins : s.Twins times w₁.disk w₂.disk
  source : w₁.source = w₂.source
  clock : times = true → w₁.clock = w₂.clock
  left : HoldsLog env₁ w₁.disk
  right : HoldsLog env₂ w₂.disk

/-- What two actions come to that agree. -/
structure Outcome {ε α β : Type} (s : Site) (times : Bool) (env₁ env₂ : Environment)
    (w₁ w₂ : World) (x : Except ε α × World) (y : Except ε β × World)
    (Q : α → β → Disk → Disk → Prop) : Prop where
  world : s.SameWorld times env₁ env₂ x.2 y.2
  left : Disk.SameOff s.Owns w₁.disk x.2.disk
  right : Disk.SameOff s.Owns w₂.disk y.2.disk
  result : Both (fun a b => Q a b x.2.disk y.2.disk) x.1 y.1

/-- Two actions agree (see the module docstring). -/
def Agrees {ε α β : Type} (s : Site) (times : Bool) (env₁ env₂ : Environment)
    (P : Disk → Disk → Prop) (a : Action ε α) (b : Action ε β)
    (Q : α → β → Disk → Disk → Prop) : Prop :=
  ∀ w₁ w₂, s.SameWorld times env₁ env₂ w₁ w₂ → P w₁.disk w₂.disk →
    s.Outcome times env₁ env₂ w₁ w₂ (a.run w₁) (b.run w₂) Q

/-- No condition on two disks. -/
def Any (_ _ : Disk) : Prop := True

/-- No condition on the answers of two actions. -/
def Done {α β : Type} (_ : α) (_ : β) (_ _ : Disk) : Prop := True

/-- The answers are the same. -/
def Equal {α : Type} (a b : α) (_ _ : Disk) : Prop := a = b

variable {ε ε' α α' β β' γ : Type} {s : Site} {times : Bool} {env₁ env₂ : Environment}
  {w₁ w₂ : World}

namespace SameWorld

theorem tick (h : s.SameWorld times env₁ env₂ w₁ w₂) :
    s.SameWorld times env₁ env₂ (Action.tick w₁) (Action.tick w₂) :=
  { h with clock := fun ht => by simp only [Action.tick, h.clock ht] }

theorem time (h : s.SameWorld times env₁ env₂ w₁ w₂) (ht : times = true) :
    Action.time w₁ = Action.time w₂ := by
  simp only [Action.time, h.clock ht]

theorem withSource (h : s.SameWorld times env₁ env₂ w₁ w₂) (source : Source) :
    s.SameWorld times env₁ env₂ { w₁ with source } { w₂ with source } :=
  { h with source := rfl }

/-- The worlds look the same after their disks have moved together. -/
theorem moves (h : s.SameWorld times env₁ env₂ w₁ w₂) {d₁ d₂ : Disk}
    (hd : s.Moves times w₁.disk w₂.disk d₁ d₂) :
    s.SameWorld times env₁ env₂ { w₁ with disk := d₁ } { w₂ with disk := d₂ } := by
  have hlog : ∀ {d d' : Disk} {f : OpenFile}, s.Within d d' → f.location = s.log → d.Holds f →
      d'.Holds f := by
    rintro d d' f hw hf ⟨bytes, h⟩
    exact ⟨bytes, (hw.off.node? fun hin => hin.ne_log hf).trans h⟩
  refine { h with twins := hd.twins, left := fun path f hf => ?_, right := fun path f hf => ?_ }
  · obtain ⟨h₁, -⟩ | ⟨_, _, _, h₁, -, hl, -⟩ := h.env.sink
    · rw [h₁] at hf; cases hf
    · rw [h₁] at hf; cases hf; exact hlog hd.left hl (h.left _ _ h₁)
  · obtain ⟨-, h₂⟩ | ⟨_, _, _, -, h₂, -, hl⟩ := h.env.sink
    · rw [h₂] at hf; cases hf
    · rw [h₂] at hf; cases hf; exact hlog hd.right hl (h.right _ _ h₂)

/-- The worlds look the same after an event was written to the log of each. -/
theorem appendLog (h : s.SameWorld times env₁ env₂ w₁ w₂) {path : Path} {f g : OpenFile}
    (h₁ : env₁.sink = .file path f) (h₂ : env₂.sink = .file path g) (hf : f.location = s.log)
    (hg : g.location = s.log) (e : Event) :
    s.SameWorld times env₁ env₂
      { Action.tick w₁ with
        disk := w₁.disk.append (Action.time w₁) f (LogSink.recordBytes (Action.time w₁) e) }
      { Action.tick w₂ with
        disk := w₂.disk.append (Action.time w₂) g (LogSink.recordBytes (Action.time w₂) e) } := by
  have holds₁ := h.left _ _ h₁
  have holds₂ := h.right _ _ h₂
  refine { h.tick with
    twins := ⟨h.twins.left.writeLog hf, h.twins.right.writeLog hg, ?_⟩
    left := fun path' f' hf' => ?_
    right := fun path' g' hg' => ?_ }
  · refine h.twins.alike.store h.twins.left.tree h.twins.right.tree h.time (hf.trans hg.symm)
      holds₁ holds₂ fun hwatched => ?_
    obtain hin | ⟨ht, -⟩ := hwatched
    · exact absurd hf hin.ne_log
    · rw [h.time ht, h.twins.alike.load (.inr ⟨ht, hf⟩) (hf.trans hg.symm) holds₁ holds₂]
  · rw [h₁] at hf'; cases hf'; exact holds₁.store _
  · rw [h₂] at hg'; cases hg'; exact holds₂.store _

end SameWorld

namespace Agrees

variable {P P' : Disk → Disk → Prop} {a : Action ε α} {b : Action ε β}
  {Q Q' : α → β → Disk → Disk → Prop}

theorem mono (h : s.Agrees times env₁ env₂ P a b Q) (hp : ∀ d₁ d₂, P' d₁ d₂ → P d₁ d₂)
    (hq : ∀ x y d₁ d₂, Q x y d₁ d₂ → Q' x y d₁ d₂) : s.Agrees times env₁ env₂ P' a b Q' :=
  fun w₁ w₂ hw hP =>
    let o := h w₁ w₂ hw (hp _ _ hP)
    { o with result := o.result.mono fun x y => hq x y _ _ }

theorem anyway (h : s.Agrees times env₁ env₂ Any a b Q) : s.Agrees times env₁ env₂ P a b Q :=
  h.mono (fun _ _ _ => trivial) fun _ _ _ _ => id

/-- Two actions agree if they do once the environments are known to be those of the test. -/
theorem ofEnv (h : s.SameEnv times env₁ env₂ → s.Agrees times env₁ env₂ P a b Q) :
    s.Agrees times env₁ env₂ P a b Q := fun w₁ w₂ hw => h hw.env w₁ w₂ hw

/-- What a condition on the disks says about other things is known. -/
theorem given {φ : Prop} (hp : ∀ d₁ d₂, P d₁ d₂ → φ) (h : φ → s.Agrees times env₁ env₂ P a b Q) :
    s.Agrees times env₁ env₂ P a b Q := fun w₁ w₂ hw hP => h (hp _ _ hP) w₁ w₂ hw hP

theorem pure {x : α} {y : β} (h : ∀ d₁ d₂, P d₁ d₂ → Q x y d₁ d₂) :
    s.Agrees times env₁ env₂ P (Pure.pure x : Action ε α) (Pure.pure y : Action ε β) Q :=
  fun _ _ hw hP => ⟨hw, .refl _, .refl _, .ok (h _ _ hP)⟩

theorem throw (e : ε) : s.Agrees times env₁ env₂ P (throw e : Action ε α)
    (MonadExcept.throw e : Action ε β) Q :=
  fun _ _ hw _ => ⟨hw, .refl _, .refl _, .error e⟩

theorem bind {R : α' → β' → Disk → Disk → Prop} {f : α → Action ε α'} {g : β → Action ε β'}
    (h : s.Agrees times env₁ env₂ P a b Q)
    (hfg : ∀ x y, s.Agrees times env₁ env₂ (Q x y) (f x) (g y) R) :
    s.Agrees times env₁ env₂ P (a >>= f) (b >>= g) R := by
  intro w₁ w₂ hw hP
  obtain ⟨world, left, right, result⟩ := h w₁ w₂ hw hP
  rw [Action.run_bind, Action.run_bind]
  revert world left right result
  generalize a.run w₁ = x, b.run w₂ = y
  obtain ⟨x, w₁'⟩ := x
  obtain ⟨y, w₂'⟩ := y
  rintro world left right (⟨hQ⟩ | e)
  · have o := hfg _ _ w₁' w₂' world hQ
    exact { o with left := left.trans o.left, right := right.trans o.right }
  · exact ⟨world, left, right, .error e⟩

theorem map {R : α' → β' → Disk → Disk → Prop} (h : s.Agrees times env₁ env₂ P a b Q) {f : α → α'}
    {g : β → β'} (hfg : ∀ x y d₁ d₂, Q x y d₁ d₂ → R (f x) (g y) d₁ d₂) :
    s.Agrees times env₁ env₂ P (f <$> a) (g <$> b) R := by
  intro w₁ w₂ hw hP
  obtain ⟨world, left, right, result⟩ := h w₁ w₂ hw hP
  rw [Action.run_map, Action.run_map]
  exact ⟨world, left, right, result.map fun x y => hfg x y _ _⟩

theorem mapError (h : s.Agrees times env₁ env₂ P a b Q) (f : ε → ε') :
    s.Agrees times env₁ env₂ P (a.mapError f) (b.mapError f) Q :=
  fun w₁ w₂ hw hP =>
    let o := h w₁ w₂ hw hP
    ⟨o.world, o.left, o.right, o.result.mapError⟩

theorem named {a : Action IoError α} {b : Action IoError β}
    (h : s.Agrees times env₁ env₂ P a b Q) (request : String) (p : Path) :
    s.Agrees times env₁ env₂ P (a.named request p) (b.named request p) Q := h.mapError _

theorem ask {f : Disk → Except ε α} {g : Disk → Except ε β}
    (h : ∀ d₁ d₂, s.Twins times d₁ d₂ → P d₁ d₂ → Both (fun x y => Q x y d₁ d₂) (f d₁) (g d₂)) :
    s.Agrees times env₁ env₂ P (Action.ask f) (Action.ask g) Q :=
  fun _ _ hw hP => ⟨hw, .refl _, .refl _, h _ _ hw.twins hP⟩

/-- What does not depend on the disk is the same on both. -/
theorem bindConst {R : α' → β' → Disk → Disk → Prop} {x : Except ε α} {f : α → Action ε α'}
    {g : α → Action ε β'} (h : ∀ a, x = .ok a → s.Agrees times env₁ env₂ P (f a) (g a) R) :
    s.Agrees times env₁ env₂ P (Action.ask (fun _ => x) >>= f) (Action.ask (fun _ => x) >>= g)
      R := by
  refine bind (Q := fun a b d₁ d₂ => (x = .ok a ∧ a = b) ∧ P d₁ d₂)
    (ask fun _ _ _ hP => .of_eq rfl fun a ha => ⟨⟨ha, rfl⟩, hP⟩) fun a b =>
    given (fun _ _ h => h.1) ?_
  rintro ⟨ha, rfl⟩
  exact (h a ha).mono (fun _ _ h => h.2) fun _ _ _ _ => id

/-- The actions go on with the same answer. -/
theorem bindEqual {R : α' → β' → Disk → Disk → Prop} {a b : Action ε α} {f : α → Action ε α'}
    {g : α → Action ε β'} (h : s.Agrees times env₁ env₂ P a b Equal)
    (hfg : ∀ x, s.Agrees times env₁ env₂ Any (f x) (g x) R) :
    s.Agrees times env₁ env₂ P (a >>= f) (b >>= g) R := by
  refine h.bind fun x y => given (φ := x = y) (fun _ _ h => h) ?_
  rintro rfl
  exact (hfg x).anyway

theorem request {f : Time → Disk → Except ε (α × Disk)} {g : Time → Disk → Except ε (β × Disk)}
    (h : ∀ t₁ t₂ d₁ d₂, s.Twins times d₁ d₂ → (times = true → t₁ = t₂) → P d₁ d₂ →
      Both (fun x y => s.Moves times d₁ d₂ x.2 y.2 ∧ Q x.1 y.1 x.2 y.2) (f t₁ d₁) (g t₂ d₂)) :
    s.Agrees times env₁ env₂ P (Action.request f) (Action.request g) Q := by
  intro w₁ w₂ hw hP
  have hfg := h _ _ _ _ hw.twins hw.time hP
  rw [Action.run_request, Action.run_request]
  revert hfg
  generalize f (Action.time w₁) w₁.disk = x, g (Action.time w₂) w₂.disk = y
  rintro (⟨hmoves, hQ⟩ | e)
  · exact ⟨hw.tick.moves hmoves, hmoves.left.off.mono fun _ => .inl,
      hmoves.right.off.mono fun _ => .inl, .ok hQ⟩
  · exact ⟨hw.tick, .refl _, .refl _, .error e⟩

theorem change {f g : Time → Disk → Except ε Disk} {Q : Unit → Unit → Disk → Disk → Prop}
    (h : ∀ t₁ t₂ d₁ d₂, s.Twins times d₁ d₂ → (times = true → t₁ = t₂) → P d₁ d₂ →
      Both (fun d₁' d₂' => s.Moves times d₁ d₂ d₁' d₂' ∧ Q () () d₁' d₂') (f t₁ d₁) (g t₂ d₂)) :
    s.Agrees times env₁ env₂ P (Action.change f) (Action.change g) Q :=
  request fun t₁ t₂ d₁ d₂ tw ht hP => (h t₁ t₂ d₁ d₂ tw ht hP).map fun _ _ => id

theorem tryDraw (f : Source → Except ε (α × Source)) :
    s.Agrees times env₁ env₂ P (Action.tryDraw f) (Action.tryDraw f)
      fun x y d₁ d₂ => x = y ∧ P d₁ d₂ := by
  intro w₁ w₂ hw hP
  rw [Action.run_tryDraw, Action.run_tryDraw, ← hw.source]
  cases f w₁.source with
  | error e => exact ⟨hw, .refl _, .refl _, .error e⟩
  | ok x => exact ⟨hw.withSource x.2, .refl _, .refl _, .ok ⟨rfl, hP⟩⟩

theorem draw (f : Source → α × Source) :
    s.Agrees (ε := ε) times env₁ env₂ P (Action.draw f) (Action.draw f)
      fun x y d₁ d₂ => x = y ∧ P d₁ d₂ := tryDraw _

/-- Loops agree if their steps do and keep the condition that these start from. -/
theorem forM_keeps {l : List γ} {f g : γ → Action ε Unit}
    (h : ∀ x ∈ l, s.Agrees times env₁ env₂ P (f x) (g x) fun _ _ => P) :
    s.Agrees times env₁ env₂ P (l.forM f) (l.forM g) fun _ _ => P := by
  induction l with
  | nil => exact pure fun _ _ => id
  | cons x l ih =>
    show s.Agrees times env₁ env₂ P (f x >>= fun _ => l.forM f) (g x >>= fun _ => l.forM g) _
    exact (h x List.mem_cons_self).bind fun _ _ => ih fun y hy => h y (List.mem_cons_of_mem x hy)

theorem forM {l : List γ} {f g : γ → Action ε Unit}
    (h : ∀ x ∈ l, s.Agrees times env₁ env₂ Any (f x) (g x) Done) :
    s.Agrees times env₁ env₂ Any (l.forM f) (l.forM g) Done := forM_keeps h

theorem write (e : Event) :
    s.Agrees (ε := ε) times env₁ env₂ P (env₁.write e) (env₂.write e) Done := by
  intro w₁ w₂ hw _
  unfold Environment.write
  rw [LogSink.run_write, LogSink.run_write]
  obtain ⟨h₁, h₂⟩ | ⟨path, f, g, h₁, h₂, hf, hg⟩ := hw.env.sink
  · rw [h₁, h₂]
    exact ⟨{ hw.tick with }, .refl _, .refl _, .ok trivial⟩
  · have hw' := hw.appendLog h₁ h₂ hf hg e
    rw [h₁, h₂]
    refine ⟨{ hw' with }, .update (.inr hf) _, .update (.inr hg) _, .ok trivial⟩

end Agrees

end TwinTrees.Site
