import TwinTrees.Proofs.Site.Test

/-!
# Tests beside each other

Tests in one run root have their directories beside each other. What one of them changes is not near
the directory of another one, so it leaves the other as far as it has come
(`SameProgress.beside`). Two runs of one test that look the same to it come to the same end
(`SameProgress.toEnd`).
-/

namespace TwinTrees

namespace Progress

variable {r : Run} {file : Path} {p : Progress} {w : World}

/-- Whether the test has its directory. -/
def holds : Progress → Bool
  | waiting => false
  | running .. => true
  | finished (.ok ()) => false
  | finished (.error e) => e.keepsRoot

theorem holds_of_over {outcome : Except RunError Unit} (h : p.outcome? = some outcome) :
    p.holds = true ↔ ∃ e, outcome = .error e ∧ e.keepsRoot = true := by
  cases p with
  | finished o =>
    cases h
    cases outcome with
    | ok => exact ⟨nofun, fun ⟨e, he, _⟩ => by cases he⟩
    | error e => exact ⟨fun hk => ⟨e, rfl, hk⟩, fun ⟨e', he, hk⟩ => by cases he; exact hk⟩
  | _ => cases h

theorem toEnd_finished {outcome : Except RunError Unit} :
    toEnd r file (.finished outcome) w = (outcome, w) := by
  rw [toEnd]
  split
  · next h => cases h; rfl
  · next h => cases h

theorem toEnd_step (h : p.outcome? = none) :
    toEnd r file p w = toEnd r file (p.step r file w).1 (p.step r file w).2 := by
  rw [toEnd]
  split
  · next h' => rw [h] at h'; cases h'
  · rfl

theorem step_ne_waiting (h : p.outcome? = none) : (p.step r file w).1 ≠ .waiting := by
  intro hstep
  have hlt := rank_step_lt r file p w h
  rw [hstep] at hlt
  cases p with
  | waiting => cases hlt <;> next h => exact absurd h (Nat.lt_irrefl _)
  | running => cases hlt; next h => exact absurd h (Nat.not_lt_zero _)
  | finished => cases h

/-- So many steps of the test in a file. -/
def steps (r : Run) (file : Path) (n : Nat) (x : Progress × World) : Progress × World :=
  Nat.iterate (fun y => y.1.step r file y.2) n x

/-- A test that is over after so many steps has come to its end. -/
theorem toEnd_of_steps {outcome : Except RunError Unit} (n : Nat) (x : Progress × World)
    (h : (steps r file n x).1.outcome? = some outcome) :
    toEnd r file x.1 x.2 = (outcome, (steps r file n x).2) := by
  have hsucc : ∀ n x, steps r file (n + 1) x = steps r file n (x.1.step r file x.2) :=
    fun _ _ => rfl
  induction n generalizing x with
  | zero =>
    obtain ⟨p, w⟩ := x
    cases p with
    | finished o => cases h; exact toEnd_finished
    | _ => cases h
  | succ n ih =>
    rw [hsucc] at h ⊢
    cases hx : x.1.outcome? with
    | none => rw [toEnd_step hx]; exact ih _ h
    | some o =>
      obtain ⟨p, w⟩ := x
      cases p with
      | finished o => exact ih _ h
      | _ => cases hx

end Progress

namespace Site

variable {s s' : Site} {times : Bool} {workers : Nat} {d d' : Disk} {l : Location} {p : Progress}
  {w w' : World} {x y : Progress × World}

/-- The sites of two tests in one run root, which have different names. -/
structure Beside (s s' : Site) : Prop where
  home : s'.home = s.home
  name : s'.name ≠ s.name

namespace Beside

variable (b : s.Beside s')
include b

theorem not_near (hl : s.Below l) : ¬ s'.Near l := by
  rintro (hl' | rfl)
  · have hroot := List.prefix_of_prefix_length_le hl' hl (by simp [root, b.home])
    rw [root, root, b.home] at hroot
    have := List.append_inj_right (hroot.eq_of_length (by simp)) rfl
    exact b.name (List.cons.inj this).1
  · rw [b.home] at hl
    exact Stays.below_home hl

theorem apart (stays : s'.Stays d d') : Disk.Alike false s.Apart d d' := by
  refine stays.apart.mono fun l hl => ?_
  rw [Apart, b.home]
  exact hl

theorem alike (stays : s'.Stays d d') {Q : Location → Prop} [DecidablePred Q]
    (hq : ∀ l, Q l → s.Below l) : Disk.Alike times Q d' d :=
  (stays.off.alike fun l hl => b.not_near (hq l hl)).symm

theorem node? (stays : s'.Stays d d') (hl : s.Below l) : d'.node? l = d.node? l :=
  stays.off.node? (b.not_near hl)

theorem standing (h : s.Standing d) (ready : s.Ready d) (stays : s'.Stays d d') :
    s.Standing d' where
  toFound := (ready.of_alike stays.tree (b.apart stays)).found
  sides side := (b.node? stays (inside_side side).below).trans (h.sides side)
  enclosed hin hl := h.enclosed hin ((b.node? stays hin.below).symm.trans hl)

theorem ended {outcome : Except RunError Unit} {d₂ : Disk} (h : s.Ended times outcome d d₂)
    (stays : s'.Stays d d') : s.Ended times outcome d' d₂ := by
  cases h with
  | kept error keeps left right alike =>
    exact .kept error keeps ((b.node? stays List.prefix_rfl).trans left) right
      ((b.alike stays fun _ => Watched.below).trans alike)
  | gone keeps left right =>
    exact .gone keeps ((b.node? stays List.prefix_rfl).trans left) right

theorem sameWorld {env₁ env₂ : Environment} {w₂ : World} (h : s.SameWorld times env₁ env₂ w w₂)
    (ready : s.Ready w.disk) (stays : s'.Stays w.disk w'.disk) (source : w'.source = w.source)
    (clock : w'.clock = w.clock) : s.SameWorld times env₁ env₂ w' w₂ where
  env := h.env
  twins := ⟨b.standing h.twins.left ready stays, h.twins.right,
    (b.alike stays fun _ => Watched.below).trans h.twins.alike⟩
  source := source.trans h.source
  clock ht := clock.trans (h.clock ht)
  left path f hf := by
    obtain ⟨bytes, hbytes⟩ := h.left path f hf
    refine ⟨bytes, (b.node? stays ?_).trans hbytes⟩
    obtain ⟨hsink, -⟩ | ⟨_, f', _, hsink, -, hlog, -⟩ := h.env.sink
    · rw [hsink] at hf; cases hf
    · rw [hsink] at hf
      cases hf
      rw [hlog]
      exact List.prefix_append _ _
  right := h.right

end Beside

/-- What another test changes leaves a test as far as it has come. -/
theorem SameProgress.beside (h : s.SameProgress times workers (p, w) y) (b : s.Beside s')
    (stays : s'.Stays w.disk w'.disk) (source : w'.source = w.source) (clock : w'.clock = w.clock) :
    s.SameProgress times workers (p, w') y := by
  cases h with
  | running world env valid ready handlers names =>
    exact .running (b.sameWorld world ready.1 stays source clock) env valid
      ⟨ready.1.of_alike stays.tree (b.apart stays), ready.2⟩ handlers names
  | finished ended => exact .finished (b.ended ended stays)

theorem SameProgress.of_disk (h : s.SameProgress times workers (p, w) y)
    (disk : w'.disk = w.disk) (source : w'.source = w.source) (clock : w'.clock = w.clock) :
    s.SameProgress times workers (p, w') y := by
  cases h with
  | running world env valid ready handlers names =>
    obtain ⟨henv, twins, hsource, hclock, left, right⟩ := world
    rw [← disk] at twins left
    exact .running ⟨henv, twins, source.trans hsource, fun ht => clock.trans (hclock ht), left,
      right⟩ env valid ⟨disk ▸ ready.1, ready.2⟩ handlers names
  | finished ended => exact .finished (disk ▸ ended)

theorem SameProgress.outcome?_eq (h : s.SameProgress times workers x y) :
    y.1.outcome? = x.1.outcome? := by
  cases h with
  | running => rfl
  | finished => rfl

theorem SameProgress.over {outcome : Except RunError Unit}
    (h : s.SameProgress times workers x y) (r : Run) (file : Path) (isOver : x.1.outcome? = some outcome) :
    y.1.toEnd r file y.2 = (outcome, y.2) ∧ s.Ended times outcome x.2.disk y.2.disk := by
  cases h with
  | running => cases isOver
  | finished ended => cases isOver; exact ⟨Progress.toEnd_finished, ended⟩

theorem SameProgress.holds_iff (h : s.SameProgress times workers x y) :
    x.1.holds = true ↔ x.2.disk.node? s.root ≠ none := by
  cases h with
  | running world =>
    exact ⟨fun _ => Disk.node?_ne_none_of_eq world.twins.left.isDir_root, fun _ => rfl⟩
  | @finished outcome _ _ ended =>
    cases ended with
    | kept error keeps left =>
      subst error
      exact ⟨fun _ => Disk.node?_ne_none_of_eq left, fun _ => keeps⟩
    | gone keeps left =>
      refine ⟨fun hholds => ?_, fun hnode => absurd left hnode⟩
      cases outcome with
      | ok => cases hholds
      | error e => exact absurd hholds (Bool.eq_false_iff.1 (keeps e rfl))

/-- Two runs of a test that look the same to it come to the same end, and change nothing but what
belongs to the test. -/
theorem SameProgress.toEnd (h : s.SameProgress times workers x y) (r : Run) (file : Path) :
    ∃ outcome w₁ w₂, x.1.toEnd r file x.2 = (outcome, w₁) ∧ y.1.toEnd r file y.2 = (outcome, w₂) ∧
      s.Ended times outcome w₁.disk w₂.disk ∧ (x.2.disk.IsTree → s.Stays x.2.disk w₁.disk) := by
  obtain ⟨p, w⟩ := x
  induction p, w using Progress.toEnd.induct r file generalizing y with
  | case1 p w outcome hover =>
    cases h with
    | running => cases hover
    | finished ended =>
      exact ⟨_, _, _, Progress.toEnd_finished, Progress.toEnd_finished, ended, .refl⟩
  | case2 p w hopen ih =>
    have hopen' : y.1.outcome? = none := h.outcome?_eq.trans hopen
    obtain ⟨hstep, hstays, -⟩ := h.step r file
    obtain ⟨outcome, w₁, w₂, h₁, h₂, hended, hrest⟩ := ih hstep
    refine ⟨outcome, w₁, w₂, (Progress.toEnd_step hopen).trans h₁,
      (Progress.toEnd_step hopen').trans h₂, hended, fun tree => ?_⟩
    exact (hstays tree).trans (hrest (hstays tree).tree)

end Site

end TwinTrees
