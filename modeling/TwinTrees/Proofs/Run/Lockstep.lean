import TwinTrees.Proofs.Base.Fresh
import TwinTrees.Proofs.Run.Staging

/-!
# Scripts that treat both sides alike

As long as the commands of a test do the same to both sides and succeed, the sides hold the same
tree, and right after a `sync` or `touch` all their entries were modified at the start of the test
(`Run.sides_in_lockstep`). It does not matter where the run root is: the directory of the test is
made where nothing was, and what the test does stays below it.
-/

namespace TwinTrees

open TwinTrees.Action (Triple)

namespace Base

variable {b : Base} {mode : Mode} {env : Environment} {d : Disk}

/-- Sides that look the same hold the same tree. -/
theorem Shows.parallel (h : b.Shows mode View.Same d) :
    d.Parallel (b.onSide .lhs []) (b.onSide .rhs []) := by
  intro m
  rw [← onSide_append, ← onSide_append, List.nil_append, h.1.map_shown, h.1.map_shown, h.2]

/-- The paths of the sides lead to them. -/
theorem Houses.names (h : b.Houses env) (plain : b.Plain mode d) (side : Side) :
    d.Names (env.side side) (b.onSide side []) :=
  (h.fits.spells side).names plain.stands plain.few (h.valid side) (plain.sides side)

end Base

namespace Run

variable {r : Run} {file : Path} {w w₁ : World} {env : Environment} {text : String}
  {commands done rest : List (Script.Command Verb)} {c : Script.Command Verb} {b : Base} {mode : Mode}

/-- Once a test was set up, its sides are there and nothing is on them. -/
theorem setUp_shows (parse : Script.parse r.registry file.text text = .ok commands) :
    Triple (fun d => d.readText file = .ok text ∧ d.IsTree ∧ d.IsDir d.workingDirectory)
      (r.setUp file) fun x d => x.2 = commands ∧
        (∃ start sink, x.1 = r.environment file start sink) ∧
          ∃ (b : Base) (mode : Mode), b.Houses x.1 ∧ b.Shows mode View.Same d := by
  have hread : Triple (fun d => d.readText file = .ok text ∧ d.IsTree ∧ d.IsDir d.workingDirectory)
      (readScript r.registry file)
      fun x d => x = commands ∧ d.IsTree ∧ d.IsDir d.workingDirectory := by
    unfold readScript
    refine Triple.bind (Q := fun x d => x = text ∧ d.IsTree ∧ d.IsDir d.workingDirectory)
      (Triple.mapError (Triple.ask fun d x h hx => ⟨Except.ok.inj (hx.symm.trans h.1), h.2⟩) _)
        fun x => Triple.ask fun d x h hx => ?_
    rw [h.1, parse] at hx
    exact ⟨(Except.ok.inj hx).symm, h.2⟩
  unfold setUp
  refine hread.bind fun x => Triple.given (fun _ h => h.1) fun hx => ?_
  refine ((Base.build _ _ _ _).pre fun _ h => h.2).bind fun env =>
    Triple.given (fun _ h => h.1) fun henv => ?_
  refine Triple.bind (Q := fun _ d => ∃ x : Base × Mode, x.1.Houses env ∧
    x.1.Shows x.2 View.Same d) ?_ fun _ => Triple.pure fun d h => ?_
  · refine Triple.pre (P := fun d => ∃ x : Base × Mode, x.1.Houses env ∧
      x.1.Shows x.2 View.Same d) ?_ fun d h => ?_
    · refine Triple.ofExists fun x => Triple.given (fun _ h => h.1) fun houses => ?_
      exact (Base.Shows.write houses.logs _).mono (fun _ h => h.2) fun _ _ h => ⟨x, houses, h⟩
    · obtain ⟨-, b, mode, h⟩ := h
      exact ⟨(b, mode), h⟩
  · obtain ⟨⟨b, mode⟩, h⟩ := h
    exact ⟨hx, henv, b, mode, h⟩

/-- Commands that treat both sides alike keep them the same. -/
theorem perform_shows (houses : b.Houses env) (built : ∃ start sink, env = r.environment file start sink)
    (handlers : ∀ c ∈ commands, c.handler ∈ Verb.standard.handlers)
    (pairs : r.Expanded file Verb.Pairs commands) (hc : c ∈ commands) :
    Triple (b.Shows mode View.Same) (env.perform c) fun _ d => b.Shows mode View.Same d ∧
      (c.handler.name ∈ ["sync", "touch"] → ∀ side m, d.HasTime env.start (b.onSide side m)) := by
  obtain ⟨start, sink, rfl⟩ := built
  exact houses.fits.perform houses.logs (handlers c hc) (pairs c hc start sink)

/-- While the commands of a test do the same to both sides by local names and succeed, its sides hold
the same tree, with the same bytes and permission bits. Right after a `sync` or `touch`, all files
and directories in it were modified at the start of the test. -/
theorem sides_in_lockstep (r : Run) (file : Path) {w w₁ : World} {env : Environment} {text : String}
    {done rest : List (Script.Command Verb)} (registry : r.registry = Verb.standard)
    (tree : w.disk.IsTree) (working : w.disk.IsDir w.disk.workingDirectory)
    (read : w.disk.readText file = .ok text)
    (parse : Script.parse r.registry file.text text = .ok (done ++ rest))
    (pairs : r.Expanded file Verb.Pairs (done ++ rest))
    (run : Relation.ReflTransGen (r.Steps file) (.waiting, w) (.running env rest, w₁)) :
    ∃ left right, w₁.disk.Names env.lhs left ∧ w₁.disk.Names env.rhs right ∧
      w₁.disk.IsDir left ∧ w₁.disk.Parallel left right ∧
      ∀ c ∈ done.getLast?, c.handler.name ∈ ["sync", "touch"] →
        w₁.disk.Matches env.start left right := by
  obtain heq | ⟨z, ⟨-, rfl⟩, hrest⟩ := run.cases_head
  · cases heq
  rw [Progress.step_waiting] at hrest
  cases hsetUp : (r.setUp file).run w with
  | mk x v =>
  rw [hsetUp] at hrest
  cases x with
  | error e => cases eq_of_over (by nofun) hrest
  | ok x =>
  obtain ⟨env', commands⟩ := x
  obtain ⟨hcommands, built, b, mode, houses, shows⟩ :=
    setUp_shows parse w _ v ⟨read, tree, working⟩ hsetUp
  obtain rfl : commands = done ++ rest := hcommands
  obtain ⟨rfl, done', hdone, hperformed⟩ := performed_before_of_steps hrest
  obtain rfl := List.append_cancel_right hdone
  have hmem : ∀ c ∈ done ++ rest, c.handler ∈ Verb.standard.handlers := by
    rw [← registry]
    exact Script.handler_mem_of_parse parse
  have hperform : ∀ c ∈ done, Triple (b.Shows mode View.Same) (env.perform c) _ :=
    fun c hc => perform_shows houses built hmem pairs (List.mem_append_left rest hc)
  have hkeeps : ∀ cs ⊆ done, Triple (b.Shows mode View.Same) (cs.forM env.perform)
      fun _ => b.Shows mode View.Same :=
    fun cs hcs => Triple.forM_keeps fun c hc => (hperform c (hcs hc)).post fun _ _ h => h.1
  have hshows := hkeeps done (List.Subset.refl _) v () w₁ shows hperformed
  refine ⟨_, _, houses.names hshows.1 .lhs, houses.names hshows.1 .rhs, hshows.1.sides .lhs,
    hshows.parallel, fun c hc hname => hshows.parallel.matches_of_times fun m kind _ _ => ?_⟩
  obtain ⟨before, rfl⟩ := List.getLast?_eq_some_iff.1 hc
  have hlast : Triple (b.Shows mode View.Same) ([c].forM env.perform) fun _ d =>
      ∀ side m, d.HasTime env.start (b.onSide side m) :=
    (hperform c (by simp)).bind fun _ => Triple.pure fun _ h => h.2 hname
  have htimes := Triple.forM_append (hkeeps before (by simp)) (fun _ => hlast) v () w₁ shows hperformed
  rw [← Base.onSide_append, ← Base.onSide_append]
  exact ⟨htimes .lhs m, htimes .rhs m⟩

/-- A nested file made on both sides, a copy of one side onto the other, a removal and a `sync`. -/
theorem sides_in_lockstep_after_removal :
    let entry : Node → Entry := fun node => ⟨node, 0o755, ⟨0, 0⟩, ⟨0, 0⟩⟩
    let d : Disk := ⟨[([], entry .directory), (["a.t".toList], entry (.file 0
      "mkfile -t both -m1 -M1 d/f\nclone\nrm lhs=d/f rhs=d/f\nsync\n".toUTF8.data))],
      1, []⟩
    let r : Run := { root := ⟨"/run"⟩, registry := Verb.standard, target := .console, workers := 1 }
    let w : World := ⟨⟨d, []⟩, .seeded 0, fun n => ⟨n, 0⟩, 0⟩
    ∃ env w₁, Relation.ReflTransGen (r.Steps ⟨"/a.t"⟩) (.waiting, w) (.running env [], w₁) ∧
      ∃ left right, w₁.disk.Names env.lhs left ∧ w₁.disk.Names env.rhs right ∧
        w₁.disk.IsDir left ∧ w₁.disk.Matches env.start left right := by
  intro entry d r w
  have tree : w.disk.IsTree := .of_entries (by decide) rfl (by decide)
  have working : w.disk.IsDir w.disk.workingDirectory := by decide
  have read : w.disk.readText ⟨"/a.t"⟩ = .ok
      "mkfile -t both -m1 -M1 d/f\nclone\nrm lhs=d/f rhs=d/f\nsync\n" := by rfl
  have parse : Script.parse r.registry "/a.t"
      "mkfile -t both -m1 -M1 d/f\nclone\nrm lhs=d/f rhs=d/f\nsync\n" =
      .ok ([⟨⟨"mkfile", Verb.make⟩, "mkfile", ["-t", "both", "-m1", "-M1", "d/f"], 1⟩,
        ⟨⟨"clone", Verb.copy⟩, "clone", [], 2⟩,
        ⟨⟨"rm", Verb.remove⟩, "rm", ["lhs=d/f", "rhs=d/f"], 3⟩,
        ⟨⟨"sync", Verb.stamp "sync"⟩, "sync", [], 4⟩] ++ []) := by
    rfl
  have hrank : (Progress.steps r ⟨"/a.t"⟩ 5 (.waiting, w)).1.rank = (0, 1) := by decide +kernel
  have hsteps := @reaches_steps r ⟨"/a.t"⟩ 5 (.waiting, w)
  generalize Progress.steps r ⟨"/a.t"⟩ 5 (.waiting, w) = x at hrank hsteps
  obtain ⟨p, w₁⟩ := x
  cases p with
  | waiting => cases hrank
  | finished outcome => cases hrank
  | running env commands =>
    obtain rfl : commands = [] := by simpa [Progress.rank] using hrank
    obtain ⟨left, right, hleft, hright, hdir, -, hmatches⟩ :=
      sides_in_lockstep r ⟨"/a.t"⟩ rfl tree working read parse
        (expanded_of_noDollar (by decide) (by decide)) (hsteps rfl)
    exact ⟨env, w₁, hsteps rfl, left, right, hleft, hright, hdir, hmatches _ rfl (by decide)⟩

end Run

end TwinTrees
