import TwinTrees.Proofs.Site.Copying
import TwinTrees.Proofs.Site.Staging
import TwinTrees.Proofs.Site.Stamping

/-!
# One tree on both sides of a test

When the left side was staged, a `clone` without arguments makes the right side look like it
(`Mirrored`), but for times; and a `sync` without arguments then gives all files and directories of
both sides the start time of the test.
-/

namespace TwinTrees

namespace Site

open TwinTrees.Action (Triple)

variable {s : Site} {mode : Mode} {env : Environment} {u d : Disk} {done : Location → Prop}

/-- A disk on which both sides look the same, but for times. -/
structure Mirrored (s : Site) (d : Disk) : Prop extends s.Standing d where
  same : ∀ m, (d.get? (s.side .rhs ++ m)).map (Entry.shown false) =
    (d.get? (s.side .lhs ++ m)).map (Entry.shown false)

theorem Copying.mirrored (h : s.Copying u (fun _ => True) d) : s.Mirrored d where
  toStanding := h.toStanding
  same m := by rw [h.same m trivial, h.get?_left]

namespace Mirrored

theorem writeLog (h : s.Mirrored d) {t : Time} {f : OpenFile} (hf : f.location = s.log)
    {bytes : Bytes} : s.Mirrored (d.append t f bytes) where
  toStanding := h.toStanding.writeLog hf
  same m := by
    rw [get?_writeLog hf ((inside_side .rhs).append m), get?_writeLog hf
      ((inside_side .lhs).append m), h.same]

/-- Giving both sides one time keeps them the same. -/
theorem ofStamping {time : Time} (h : s.Mirrored u) (h' : s.Stamping time u done d) :
    s.Mirrored d where
  toStanding := h'.toStanding
  same m := by
    rw [h'.same _ ((inside_side .rhs).append m), h'.same _ ((inside_side .lhs).append m), h.same]

/-- Sides that are the same match if all files and directories have the time. -/
theorem matches_sides {time : Time} (h : s.Mirrored d)
    (times : ∀ side m kind, kind ≠ .symlink → d.kind? (s.side side ++ m) = some kind →
      d.HasTime time (s.side side ++ m)) : d.Matches time (s.side .lhs) (s.side .rhs) := by
  refine Disk.Parallel.matches_of_times h.same fun m kind hkind hleft => ⟨times .lhs m kind hkind hleft, ?_⟩
  refine times .rhs m kind hkind ?_
  rw [Disk.kind?_eq_of_shown (h.same m), hleft]

end Mirrored

/-! ## The verbs without arguments -/

variable (fits : s.Fits env)
include fits

/-- A bare `clone` of a staged left side. -/
theorem copy_bare : Triple (s.Staged mode) (Verb.copy env []) fun _ => s.Mirrored := by
  unfold Verb.copy
  rw [List.isEmpty_nil, if_pos rfl]
  refine Triple.bind (Keeps.write fits _) fun _ =>
    (Copying.copyTree (fits.marks .rhs) (fits.marks .lhs)).post ?_
  rintro _ d ⟨u, -, h⟩
  exact h.mirrored

/-- A bare `sync` of sides that are the same. -/
theorem stamp_bare (verb : String) : Triple s.Mirrored (Verb.stamp verb env [])
    fun _ d => s.Mirrored d ∧ d.Matches env.start (s.side .lhs) (s.side .rhs) := by
  intro w x w' hw hrun
  have hpass : ∀ {done} (kind : Kind), kind ≠ .symlink →
      Triple (s.Stamping env.start w.disk done)
        ([env.lhs, env.rhs].forM (Tree.stampKind env.start kind)) fun _ =>
          s.Stamping env.start w.disk fun l => (done l ∨ Stamping.OfKind s .lhs kind w.disk l) ∨
            Stamping.OfKind s .rhs kind w.disk l := by
    intro done kind hkind
    exact (Stamping.stampKind (fits.marks .lhs) hkind).bind fun _ =>
      (Stamping.stampKind (fits.marks .rhs) hkind).bind fun _ => Triple.pure fun _ => id
  have hstamped := ((hpass .file nofun).bind fun _ => hpass .directory nofun)
    w x w' (.start hw.toStanding) hrun
  have mirrored := hw.ofStamping hstamped
  refine ⟨mirrored, mirrored.matches_sides fun side m kind hkind hthere => ?_⟩
  rw [hstamped.kind?_eq] at hthere
  refine hstamped.stamped _ ?_
  have hof : Stamping.OfKind s side kind w.disk (s.side side ++ m) := ⟨m, rfl, hthere⟩
  cases kind with
  | symlink => exact absurd rfl hkind
  | file => cases side <;> simp [hof]
  | directory => cases side <;> simp [hof]

/-- A command without arguments writes to the log and then does what its verb does. -/
theorem perform_bare {c : Script.Command Verb} (bare : c.arguments = []) {P : Disk → Prop}
    {Q : Unit → Disk → Prop}
    (hlog : ∀ t d f bytes, f.location = s.log → P d → P (d.append t f bytes))
    (hbody : Triple P (c.handler.body env []) Q) : Triple P (env.perform c) Q := by
  unfold Environment.perform
  refine Triple.bindConst fun arguments hexpand => ?_
  rw [bare] at hexpand
  cases hexpand
  exact (Triple.write fun path f hsink t d bytes => hlog t d f bytes (fits.log path f hsink)).bind
    fun _ => hbody.mapError _

theorem perform_clone {c : Script.Command Verb} (hmem : c.handler ∈ Verb.standard.handlers)
    (name : c.handler.name = "clone") (bare : c.arguments = []) :
    Triple (s.Staged mode) (env.perform c) fun _ => s.Mirrored := by
  have hhandler : c.handler = ⟨"clone", Verb.copy⟩ :=
    Verb.standard.eq_of_name hmem (by simp [Verb.standard]) name
  refine perform_bare fits bare (fun t d f bytes hf h => h.writeLog hf) ?_
  rw [hhandler]
  exact copy_bare fits

theorem perform_sync {c : Script.Command Verb} (hmem : c.handler ∈ Verb.standard.handlers)
    (name : c.handler.name = "sync") (bare : c.arguments = []) :
    Triple s.Mirrored (env.perform c)
      fun _ d => s.Mirrored d ∧ d.Matches env.start (s.side .lhs) (s.side .rhs) := by
  have hhandler : c.handler = ⟨"sync", Verb.stamp "sync"⟩ :=
    Verb.standard.eq_of_name hmem (by simp [Verb.standard]) name
  refine perform_bare fits bare (fun t d f bytes hf h => h.writeLog hf) ?_
  rw [hhandler]
  exact stamp_bare fits "sync"

end Site

end TwinTrees
