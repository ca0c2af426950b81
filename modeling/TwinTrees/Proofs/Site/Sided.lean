import TwinTrees.Proofs.Disk.Removal
import TwinTrees.Proofs.Disk.Success
import TwinTrees.Proofs.Site.Twins

/-!
# One side of a test

A path may lead into one given side (`Site.LeadsTo`). As long as the links of that side lead back
into it (`Site.Closed`), a walk along such a path comes out on the side, however many links it
follows (`Standing.target_on`); so what is done along such paths stays on the side.
-/

namespace TwinTrees

namespace Site

variable {s : Site} {d : Disk} {side : Side} {l dir : Location} {n : Name} {p q : Path}
  {last : LastLink} {links : Nat} {slash : Bool} {e : Ending} {target : Target}

/-- The location is the directory of the side or below it. -/
def On (s : Site) (side : Side) (l : Location) : Prop := s.side side <+: l

instance : DecidablePred (s.On side) := fun l => inferInstanceAs (Decidable (s.side side <+: l))

/-- The path leads into the side: by the run root, the test and the side, and then never up. -/
structure LeadsTo (s : Site) (side : Side) (p : Path) : Prop where
  absolute : p.isAbsolute = s.runRoot.isAbsolute
  steps : ∃ more, Descends more ∧
    p.steps = s.runRoot.steps ++ .name s.name :: .name side.name.toList :: more

/-- The links on the side have paths that lead into the side. -/
def Closed (s : Site) (side : Side) (d : Disk) : Prop :=
  ∀ l target, s.On side l → d.node? l = some (.symlink target) → s.LeadsTo side target

theorem LeadsTo.leads (h : s.LeadsTo side p) : s.Leads p :=
  let ⟨more, hmore, hsteps⟩ := h.steps
  ⟨h.absolute, side, more, hmore, hsteps⟩

theorem LeadsTo.join (hp : s.LeadsTo side p) (hq : q.isAbsolute = false) (down : Descends q.steps) :
    s.LeadsTo side (p.join q) := by
  obtain ⟨more, hmore, hsteps⟩ := hp.steps
  refine ⟨(Path.isAbsolute_join hq).trans hp.absolute, more ++ q.steps, hmore.append down, ?_⟩
  rw [Path.steps_join hq, hsteps, List.append_assoc]
  rfl

/-- A path that leads into a side, or one above it. -/
theorem LeadsTo.of_prefix (hp : s.LeadsTo side p) (habs : q.isAbsolute = p.isAbsolute)
    (hsteps : q.steps <+: p.steps) :
    s.LeadsTo side q ∨ q.steps <+: s.runRoot.steps ++ [.name s.name] := by
  obtain ⟨more, hmore, hpsteps⟩ := hp.steps
  have hp' : p.steps = (s.runRoot.steps ++ [.name s.name]) ++ .name side.name.toList :: more := by
    rw [hpsteps, List.append_assoc]
    rfl
  obtain habove | hbelow := List.prefix_or_prefix_of_prefix hsteps
    (show s.runRoot.steps ++ [.name s.name] <+: p.steps by rw [hp']; exact List.prefix_append _ _)
  · exact .inr habove
  · obtain ⟨onward, honward⟩ := hbelow
    rw [← honward, hp', List.prefix_append_right_inj] at hsteps
    cases onward with
    | nil => exact .inr (by rw [← honward, List.append_nil])
    | cons st onward =>
      obtain ⟨rfl, htail⟩ := List.cons_prefix_cons.1 hsteps
      refine .inl ⟨habs.trans hp.absolute, onward, fun st hst => hmore st (htail.subset hst), ?_⟩
      rw [← honward, List.append_assoc]
      rfl

namespace On

theorem self (s : Site) (side : Side) : s.On side (s.side side) := List.prefix_rfl

theorem inside (h : s.On side l) : s.Inside l := inside_iff.2 ⟨side, h⟩

theorem append (h : s.On side l) (more : Location) : s.On side (l ++ more) :=
  h.trans (List.prefix_append l more)

/-- The sides have nothing in common. -/
theorem eq {other : Side} (h : s.On side l) (h' : s.On other l) : side = other := by
  have heq := (List.prefix_of_prefix_length_le h h' (by simp [Site.side, root])).eq_of_length
    (by simp [Site.side])
  have hname := List.append_inj_right heq rfl
  cases side <;> cases other <;> first | rfl | exact absurd hname (by decide)

/-- What is in a directory and on the side is in a directory on the side, or is the side. -/
theorem of_append_singleton (h : s.On side (dir ++ [n])) :
    s.On side dir ∨ dir ++ [n] = s.side side := by
  obtain h | h := List.prefix_concat_iff.1 h
  · exact .inr h.symm
  · exact .inl h

end On

namespace Standing

/-- A walk from a directory on a side along steps that do not lead up comes out on the side. -/
theorem walks_on (h : s.Standing d) (closed : s.Closed side d) {steps : List Step}
    (on : s.On side dir) (down : Descends steps)
    (walks : d.Walks last links slash dir e steps target) : s.On side target.location := by
  induction links using Nat.strongRecOn generalizing slash dir e steps with
  | _ links ihl =>
  induction walks with
  | done => exact on
  | here _ ih => exact ih ihl on down.tail
  | up => exact (down .up List.mem_cons_self).elim
  | stop | name => exact on.append _
  | directory _ _ _ _ ih => exact ih ihl (on.append _) down.tail
  | @link links slash dir _ n rest target path _ _ isLink onward _ =>
    have leads := closed _ _ (on.append [n]) isLink
    obtain ⟨more, hmore, hpath⟩ := leads.steps
    have hall : path.steps ++ rest =
        s.runRoot.steps ++ .name s.name :: .name side.name.toList :: (more ++ rest) := by
      rw [hpath, List.append_assoc]; rfl
    have hdown : Descends (more ++ rest) := hmore.append down.tail
    rw [hall] at onward
    cases habs : s.runRoot.isAbsolute with
    | true =>
      -- The way starts again at the root and comes back to the side.
      rw [Path.startFrom_of_absolute (leads.absolute.trans habs),
        ← Path.startFrom_of_absolute habs d.workingDirectory] at onward
      obtain rfl | ⟨left, hleft, hon⟩ := h.walks_side onward
      · exact .self s side
      · exact ihl left (Nat.lt_succ_of_le hleft) (.self s side) hdown hon
    | false =>
      -- The way goes on below.
      rw [Path.startFrom_of_relative (leads.absolute.trans habs)] at onward
      exact ihl links (Nat.lt_succ_self _) on (s.descends_side habs side hdown) onward

/-- A path that leads into a side leads to a location there. -/
theorem target_on (h : s.Standing d) (closed : s.Closed side d) (hp : s.LeadsTo side p)
    (htarget : d.target last p = .ok target) : s.On side target.location := by
  obtain ⟨more, hmore, hsteps⟩ := hp.steps
  obtain ⟨-, hproceed⟩ := Disk.of_target_eq_ok htarget
  rw [hsteps, Path.startFrom, hp.absolute, ← Path.startFrom] at hproceed
  obtain rfl | ⟨left, -, walks⟩ := h.walks_side (Disk.walks_of_proceed hproceed)
  · exact .self s side
  · exact h.walks_on closed (.self s side) hmore walks

/-- Where nothing is, a walk into a side has come to a directory on the side. -/
theorem free_on (h : s.Standing d) (closed : s.Closed side d) (hp : s.LeadsTo side p)
    (free : d.LeadsToFree last p dir n) : s.On side dir ∧ d.IsDir dir ∧ IsName n := by
  obtain ⟨slash, htarget⟩ := free.target
  have hlands := (h.target_leads h (.refl d) hp.leads).2 htarget
  obtain ⟨-, isDir, down⟩ := hlands.free h free.free
  have hon : s.On side (dir ++ [n]) := h.target_on closed hp htarget
  refine ⟨hon.of_append_singleton.resolve_right fun hside => ?_, isDir, down.1, down.2, free.short⟩
  have hfree := free.free
  rw [hside, show d.node? _ = _ from h.sides side] at hfree
  cases hfree

/-- What is found along a path into a side is on the side. -/
theorem find_on (h : s.Standing d) (closed : s.Closed side d) (hp : s.LeadsTo side p)
    {follow : Bool} {entry : Entry} (hfind : d.find follow p = .ok (l, entry)) : s.On side l := by
  obtain ⟨target, htarget, rfl, -⟩ := Disk.of_find hfind
  exact h.target_on closed hp htarget

/-- Nothing is made above the sides, since everything is there. -/
theorem makeDirectory_above (h : s.Standing d) (habs : p.isAbsolute = s.runRoot.isAbsolute)
    (hsteps : p.steps <+: s.runRoot.steps ++ [.name s.name])
    (absolute : s.runRoot.isAbsolute = true) {t : Time} {mode : Mode} {d' : Disk} :
    d.makeDirectory t p mode ≠ .ok d' := by
  intro hmake
  have hsound : d.IsSound p :=
    ⟨h.tree, by rw [Path.startFrom_of_absolute (habs.trans absolute)]; exact h.tree.root⟩
  obtain ⟨dir, n, made⟩ := Disk.made_of_makeDirectory hsound hmake
  obtain ⟨before, hbefore, k, -, route⟩ := made.steps
  have hroot := h.wholeRoute.append (.single h.isDir_root)
  obtain ⟨rest, hrest⟩ := hsteps
  rw [← hrest, hbefore, List.append_assoc] at hroot
  rw [Path.startFrom, habs, ← Path.startFrom] at route
  exact route.node?_ne_none hroot made.free

end Standing

end Site

end TwinTrees
