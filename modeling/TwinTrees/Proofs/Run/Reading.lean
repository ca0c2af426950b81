import TwinTrees.Proofs.Disk.Directory
import TwinTrees.Run.Progress

/-!
# Reading scripts

A test is named after its file. If the file can be read, its name is one that an entry can have, so
the directory of the test can be made (`isName_of_readText`).
-/

namespace TwinTrees

namespace Disk

variable {d : Disk} {links : Nat} {slash : Bool} {cur : Location} {e : Ending} {steps : List Step}
  {target : Target} {p : Path}

/-- A walk that does not end in a name ends in a directory. -/
theorem Walks.lastStep (t : d.IsTree) (h : d.Walks .follow links slash cur e steps target)
    (hcur : d.IsDir cur) :
    (∃ l e', target = .directory l e' ∧ d.IsDir l) ∨
      ∃ before n, steps = before ++ [.name n] ∧ isTooLong n = false := by
  induction h with
  | @done _ _ cur e => exact .inl ⟨cur, e, rfl, hcur⟩
  | here _ ih =>
    obtain hdir | ⟨before, n, rfl, short⟩ := ih hcur
    · exact .inl hdir
    · exact .inr ⟨.here :: before, n, rfl, short⟩
  | up _ ih =>
    obtain hdir | ⟨before, n, rfl, short⟩ := ih (t.isDir_dropLast hcur)
    · exact .inl hdir
    · exact .inr ⟨.up :: before, n, rfl, short⟩
  | stop keeps => exact absurd keeps not_stops_follow
  | name short => exact .inr ⟨[], _, rfl, short⟩
  | @directory _ _ _ _ m _ _ _ _ isDir _ ih =>
    obtain hdir | ⟨before, n, rfl, short⟩ := ih isDir
    · exact .inl hdir
    · exact .inr ⟨.name m :: before, n, rfl, short⟩
  | @link _ _ _ _ m rest _ old _ short _ _ ih =>
    by_cases hrest : rest = []
    · exact .inr ⟨[], m, by rw [hrest]; rfl, short⟩
    · obtain hdir | ⟨before, n, hsteps, hn⟩ := ih (t.isDir_startFrom hcur old)
      · exact .inl hdir
      · obtain ⟨before', rfl, -⟩ := of_append_eq_concat hsteps hrest
        exact .inr ⟨.name m :: before', n, rfl, hn⟩

/-- The path of a file ends in a name. -/
theorem last_of_readText {text : String} (h : d.IsSound p) (hread : d.readText p = .ok text) :
    ∃ before n, p.steps = before ++ [.name n] ∧ isTooLong n = false := by
  unfold readText readBytes at hread
  cases hfind : d.find true p with
  | error fault => rw [hfind] at hread; cases hread
  | ok found =>
    obtain ⟨l, entry⟩ := found
    obtain ⟨target, htarget, rfl, hget⟩ := of_find hfind
    rw [Bool.true_or, if_pos rfl] at htarget
    obtain ⟨-, hproceed⟩ := of_target_eq_ok htarget
    obtain ⟨l, e, rfl, hdir⟩ | hlast := (walks_of_proceed hproceed).lastStep h.toIsTree h.start
    · have hnode : entry.node = .directory :=
        Option.some.inj ((node?_of_get? hget).symm.trans hdir)
      rw [hfind] at hread
      simp [bind, Except.bind, hnode, throw, throwThe, MonadExceptOf.throw] at hread
    · exact hlast

end Disk

namespace Path

/-- The file name of a path that ends in a name. -/
theorem fileName?_of_steps {p : Path} {before : List Step} {n : Name}
    (h : p.steps = before ++ [.name n]) : p.fileName? = some n := by
  rw [(segments_spec p).1, List.filterMap_map, List.filterMap_eq_append_iff] at h
  obtain ⟨front, back, hsplit, -, hback⟩ := h
  obtain ⟨heres, x, after, rfl, -, hx, hafter⟩ := List.filterMap_eq_cons_iff.1 hback
  have hxname : x.2 = some (.name n) := by
    obtain ⟨hseg, hne⟩ := Step.of?_eq_name hx
    obtain hcomp | ⟨hdot, -⟩ := component_of_mem_segments (p := p) (x := x) (by rw [hsplit]; simp)
    · rw [hcomp, hseg]
      rw [Function.comp_apply, hseg] at hx
      unfold componentOf Step.of? at *
      split at hx
      · cases hx
      · next hempty =>
        split at hx
        · cases hx
        · next hdot =>
          split at hx
          · cases hx
          · next hdots =>
            rw [if_neg (not_or_intro (by simpa using hempty) hdot), if_neg hdots]
    · rw [Function.comp_apply, hdot] at hx
      cases hx
  have hrest : after.filterMap Prod.snd = [] := by
    rw [List.filterMap_eq_nil_iff] at hafter ⊢
    intro y hy
    have hnone := hafter y hy
    rw [Function.comp_apply] at hnone
    obtain hcomp | ⟨hdot, -⟩ := component_of_mem_segments (p := p) (x := y)
      (by rw [hsplit]; simp [hy])
    · rw [hcomp]
      have hnil : y.1 = [] := by
        unfold Step.of? at hnone
        split at hnone
        · next hempty => exact List.isEmpty_iff.1 hempty
        · split at hnone
          · cases hnone
          · split at hnone <;> cases hnone
      rw [hnil]
      rfl
    · rw [hdot] at hnone
      cases hnone
  unfold fileName? components
  rw [hsplit, List.filterMap_append, List.filterMap_append, List.filterMap_cons, hxname, hrest,
    ← List.append_assoc, ← List.append_assoc, List.getLast?_concat]

end Path

theorem isName_of_readText {d : Disk} {file : Path} {text : String} (h : d.IsSound file)
    (hread : d.readText file = .ok text) : IsName (testName file).toList := by
  obtain ⟨before, n, hsteps, hshort⟩ := Disk.last_of_readText h hread
  obtain ⟨hstep, hslash⟩ := Path.mem_steps_name (p := file) (n := n) (by rw [hsteps]; simp)
  unfold testName
  rw [Path.fileName?_of_steps hsteps]
  simp only [String.toList_ofList]
  exact ⟨hstep, hslash, hshort⟩

end TwinTrees
