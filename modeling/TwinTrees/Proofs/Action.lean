import TwinTrees.World

/-!
# Running actions

What the ways to build an action do to the world they are run in. `Both` relates the results of two
actions that come to the same.
-/

namespace TwinTrees

theorem eq_ok_of_toOption {ε α : Type} {x : Except ε α} {a : α} (h : x.toOption = some a) :
    x = .ok a := by
  cases x with
  | ok b => exact congrArg _ (Option.some.inj h)
  | error e => cases h

/-- A sequence of two results is a value if both are. -/
theorem of_bind_eq_ok {ε α β : Type} {x : Except ε α} {f : α → Except ε β} {b : β}
    (h : x >>= f = .ok b) : ∃ a, x = .ok a ∧ f a = .ok b := by
  cases x with
  | ok a => exact ⟨a, rfl, h⟩
  | error e => cases h

/-- Two results that are values in a relation, or the same error. -/
inductive Both {ε α β : Type} (R : α → β → Prop) : Except ε α → Except ε β → Prop
  | ok {a : α} {b : β} (h : R a b) : Both R (.ok a) (.ok b)
  | error (e : ε) : Both R (.error e) (.error e)

namespace Both

variable {ε ε' α α' β β' : Type} {R : α → β → Prop} {x : Except ε α} {y : Except ε β}

theorem mono {R' : α → β → Prop} (h : Both R x y) (hr : ∀ a b, R a b → R' a b) : Both R' x y := by
  cases h with
  | ok h => exact .ok (hr _ _ h)
  | error e => exact .error e

theorem bind {S : α' → β' → Prop} {f : α → Except ε α'} {g : β → Except ε β'} (h : Both R x y)
    (hfg : ∀ a b, R a b → Both S (f a) (g b)) : Both S (x >>= f) (y >>= g) := by
  cases h with
  | ok h => exact hfg _ _ h
  | error e => exact .error e

theorem map {S : α' → β' → Prop} {f : α → α'} {g : β → β'} (h : Both R x y)
    (hfg : ∀ a b, R a b → S (f a) (g b)) : Both S (x.map f) (y.map g) := by
  cases h with
  | ok h => exact .ok (hfg _ _ h)
  | error e => exact .error e

theorem mapError {f : ε → ε'} (h : Both R x y) : Both R (x.mapError f) (y.mapError f) := by
  cases h with
  | ok h => exact .ok h
  | error e => exact .error (f e)

theorem of_eq {R : α → α → Prop} {x y : Except ε α} (h : x = y) (hr : ∀ a, x = .ok a → R a a) :
    Both R x y := by
  subst h
  cases x with
  | ok a => exact .ok (hr a rfl)
  | error e => exact .error e

theorem eq {x y : Except ε α} (h : Both (· = ·) x y) : x = y := by
  cases h with
  | ok h => rw [h]
  | error e => rfl

end Both

end TwinTrees

namespace TwinTrees.Action

variable {ε ε' α β : Type}

theorem run_bind (a : Action ε α) (f : α → Action ε β) (w : World) :
    (a >>= f).run w = match a.run w with
      | (.ok x, w') => (f x).run w'
      | (.error e, w') => (.error e, w') := by
  show (do let x ← a.run; ExceptT.bindCont f x : StateM World _) w = _
  simp only [bind, StateT.bind]
  cases a.run w with
  | mk x w' => cases x <;> rfl

/-- A sequence that succeeds is made of actions that do. -/
theorem of_run_bind {a : Action ε α} {f : α → Action ε β} {w w' : World} {y : β}
    (h : (a >>= f).run w = (.ok y, w')) :
    ∃ x v, a.run w = (.ok x, v) ∧ (f x).run v = (.ok y, w') := by
  rw [run_bind] at h
  cases ha : a.run w with
  | mk x v =>
    rw [ha] at h
    cases x with
    | ok x => exact ⟨x, v, rfl, h⟩
    | error e => cases h

theorem run_eq_of_toOption {r : Except ε α × World} {x : α} (h : r.1.toOption = some x) :
    r = (.ok x, r.2) := Prod.ext (eq_ok_of_toOption h) rfl

/-- Where an action that succeeds leads. -/
theorem exists_run_of_toOption {r : Except ε α × World} {x : α} (h : r.1.toOption = some x) :
    ∃ w', r = (.ok x, w') := ⟨r.2, run_eq_of_toOption h⟩

theorem run_map (f : α → β) (a : Action ε α) (w : World) :
    (f <$> a).run w = ((a.run w).1.map f, (a.run w).2) := by
  rw [map_eq_pure_bind, run_bind]
  cases a.run w with
  | mk x w' => cases x <;> rfl

theorem run_mapError (a : Action ε α) (f : ε → ε') (w : World) :
    (a.mapError f).run w = ((a.run w).1.mapError f, (a.run w).2) := rfl

theorem run_attempt (a : Action ε α) (w : World) :
    (a.attempt : Action ε' (Except ε α)).run w = (.ok (a.run w).1, (a.run w).2) := rfl

theorem run_ask (f : Disk → Except ε α) (w : World) : (ask f).run w = (f w.disk, w) := rfl

/-- What can always be read off the disk is passed on. -/
theorem run_bind_ask (f : Disk → α) (a : α → Action ε β) (w : World) :
    ((ask fun d => .ok (f d)) >>= a).run w = (a (f w.disk)).run w := run_bind _ a w

/-- The world after a reading of the clock. -/
def tick (w : World) : World := { w with clock := { w.clock with position := w.clock.position + 1 } }

/-- The time that the clock shows. -/
def time (w : World) : Time := w.clock.reading w.clock.position

theorem run_now (w : World) : (now : Action ε Time).run w = (.ok (time w), tick w) := rfl

theorem run_request (f : Time → Disk → Except ε (α × Disk)) (w : World) :
    (request f).run w = match f (time w) w.disk with
      | .ok (a, disk) => (.ok a, { tick w with disk })
      | .error e => (.error e, tick w) := by
  unfold request
  rw [run_bind, run_now]
  simp only
  rw [run_bind, run_ask, show (tick w).disk = w.disk from rfl]
  cases f (time w) w.disk <;> rfl

theorem run_change (f : Time → Disk → Except ε Disk) (w : World) :
    (change f).run w = match f (time w) w.disk with
      | .ok disk => (.ok (), { tick w with disk })
      | .error e => (.error e, tick w) := by
  unfold change
  rw [run_request]
  cases f (time w) w.disk <;> rfl

theorem run_change_ok {f : Time → Disk → Except ε Disk} {w : World} {d : Disk}
    (h : f (time w) w.disk = .ok d) : (change f).run w = (.ok (), { tick w with disk := d }) := by
  rw [run_change, h]

theorem run_tryDraw (f : Source → Except ε (α × Source)) (w : World) :
    (tryDraw f).run w = match f w.source with
      | .ok (a, source) => (.ok a, { w with source })
      | .error e => (.error e, w) := by
  show tryDraw f w = _
  unfold tryDraw
  cases f w.source <;> rfl

/-- A request that succeeds has changed the disk and nothing else, the clock apart. -/
theorem of_run_request {f : Time → Disk → Except ε (α × Disk)} {w w' : World} {x : α}
    (h : (request f).run w = (.ok x, w')) :
    ∃ d, f (time w) w.disk = .ok (x, d) ∧ w' = { tick w with disk := d } := by
  rw [run_request] at h
  cases hf : f (time w) w.disk with
  | error e => rw [hf] at h; cases h
  | ok made => rw [hf] at h; cases h; exact ⟨_, rfl, rfl⟩

theorem of_run_change {f : Time → Disk → Except ε Disk} {w w' : World}
    (h : (change f).run w = (.ok (), w')) :
    ∃ d, f (time w) w.disk = .ok d ∧ w' = { tick w with disk := d } := by
  rw [run_change] at h
  cases hf : f (time w) w.disk with
  | error e => rw [hf] at h; cases h
  | ok d => rw [hf] at h; cases h; exact ⟨_, rfl, rfl⟩

theorem of_run_draw {f : Source → α × Source} {w w' : World} {x : α}
    (h : (draw f : Action ε α).run w = (.ok x, w')) :
    x = (f w.source).1 ∧ w' = { w with source := (f w.source).2 } := by
  unfold draw at h
  rw [run_tryDraw] at h
  cases h
  exact ⟨rfl, rfl⟩

/-- An action that succeeds does so however its errors are called. -/
theorem of_run_mapError {a : Action ε α} {f : ε → ε'} {w w' : World} {x : α}
    (h : (a.mapError f).run w = (.ok x, w')) : a.run w = (.ok x, w') := by
  rw [run_mapError] at h
  obtain ⟨hx, rfl⟩ := Prod.mk.inj h
  cases hrun : a.run w with
  | mk y v =>
    rw [hrun] at hx
    cases y with
    | ok y => cases hx; rfl
    | error e => cases hx

end TwinTrees.Action

namespace TwinTrees.LogSink

/-- The bytes of an event in a log. -/
def recordBytes (t : Time) (e : Event) : Bytes := (String.ofList (LogText.record t e)).toUTF8.data

theorem run_write {ε : Type} (sink : LogSink) (e : Event) (w : World) :
    (sink.write e : Action ε Unit).run w =
      (.ok (), { Action.tick w with
        journal := w.journal ++ [⟨sink, Action.time w, e⟩]
        disk := match sink with
          | .console => w.disk
          | .file _ f => w.disk.append (Action.time w) f (recordBytes (Action.time w) e) }) := by
  cases sink <;> rfl

end TwinTrees.LogSink
