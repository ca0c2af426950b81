import TwinTrees.Proofs.Disk.Pruning
import TwinTrees.Proofs.Run.Lockstep
import TwinTrees.Run.Batch

/-!
# What the end of a test and of a run removes

A test is named after its file, and if the file can be read, its name is a name like that of any
entry, so the test has its directory right below the root of the run. Whatever the commands of the
test have made of that directory, its removal takes away nothing that is not in it, as long as the
run root is where it was; and so with the removal of the root itself
(`Run.removals_stay_in_run_root`).
-/

namespace TwinTrees

namespace Environment

variable {env : Environment} {w : World} {p : Path} {l home : Location} {n : Name}

/-- Writing to the log changes no kinds, and moves no directory. -/
theorem write_keeps {ε : Type} (e : Event) (found : w.disk.FoundAt p l) :
    let w' := ((env.write e : Action ε Unit).run w).2
    w'.disk.FoundAt p l ∧ ∀ m, w'.disk.kind? m = w.disk.kind? m :=
  (Action.Always.write (I := fun d => d.FoundAt p l ∧ ∀ m, d.kind? m = w.disk.kind? m)
    fun _ _ _ _ _ _ h => ⟨h.1.store _ _, fun m => Disk.kind?_store.trans (h.2 m)⟩).disk
      ⟨found, fun _ => rfl⟩

/-- What becomes of the directory of a test that has passed. -/
theorem cleanUp_at {name : String} (root : env.root = p.join ⟨name⟩) (isName : IsName name.toList)
    (valid : env.root.IsValid) (found : w.disk.FoundAt p home) :
    ∃ w', env.cleanUp.run w =
        (if w.disk.kind? (home ++ [name.toList]) = some .file then
          .error (.cleanup env.name env.root (.os Errno.notDirectory)) else .ok (), w') ∧
      Disk.Prunes (home ++ [name.toList]) w.disk w'.disk ∧
      (w.disk.kind? (home ++ [name.toList]) ≠ some .file →
        w'.disk.lookAt env.root = .error (.os Errno.noEntry)) := by
  obtain ⟨found', kinds⟩ := env.write_keeps (ε := RunError) (.passed env.root) found
  have htarget := found'.target_join isName (root ▸ valid)
  rw [← root] at htarget
  obtain ⟨w', hremove, prunes, gone⟩ :=
    Tree.remove_at htarget (by rw [root, Path.endsInSlash_join isName]) isName.short
  rw [kinds] at hremove gone
  refine ⟨w', ?_, prunes.of_kinds kinds, gone⟩
  unfold cleanUp
  rw [Action.run_bind, run_write]
  simp only
  rw [Action.run_mapError, hremove]
  split <;> rfl

end Environment

namespace Run

variable {r : Run} {file : Path} {text : String} {commands : List (Script.Command Verb)} {w : World}
  {home : Location}

/-- What becomes of the root of the run. -/
theorem removeRoot_at {base : Path} {name : String} (named : r.root = base.join ⟨name⟩)
    (isName : IsName name.toList) (found : w.disk.FoundAt r.root home) :
    ∃ dir w', w.disk.target .keep r.root = .ok (.name dir name.toList false) ∧
      (dir ++ [name.toList] = home ∨ w.disk.kind? (dir ++ [name.toList]) = some .symlink) ∧
      r.removeRoot.run w = (.ok (), w') ∧ Disk.Prunes (dir ++ [name.toList]) w.disk w'.disk ∧
      w'.disk.lookAt r.root = .error (.os Errno.noEntry) := by
  have hsteps : r.root.steps = base.steps ++ [.name name.toList] :=
    named ▸ Path.steps_join_name isName
  have hslash : r.root.endsInSlash = false := named ▸ Path.endsInSlash_join isName
  obtain ⟨short, dir, htarget, hplace⟩ := found.lastStep hsteps hslash
  obtain ⟨w', hremove, prunes, gone⟩ := Tree.remove_at htarget hslash short
  have noFile : w.disk.kind? (dir ++ [name.toList]) ≠ some .file := by
    obtain rfl | link := hplace
    · obtain ⟨-, -, -, isDir⟩ := found
      rw [Disk.kind?_eq_directory_iff.2 isDir]
      nofun
    · rw [link]
      nofun
  refine ⟨dir, w', htarget, hplace, ?_, prunes, gone noFile⟩
  unfold removeRoot
  rw [Action.run_mapError, hremove, if_neg noFile]
  rfl

/-- Once a test was set up, the path of the run root leads to a directory, and the path of the test
is valid. -/
theorem setUp_found (nonempty : r.root.text.isEmpty = false) (isName : IsName (testName file).toList)
    (tree : w.disk.IsTree) (working : w.disk.IsDir w.disk.workingDirectory)
    (read : w.disk.readText file = .ok text)
    (parse : Script.parse r.registry file.text text = .ok commands) {env : Environment} {w₀ : World}
    {commands' : List (Script.Command Verb)}
    (setUp : (r.setUp file).run w = (.ok (env, commands'), w₀)) :
    env.root = r.root.join ⟨testName file⟩ ∧ env.root.IsValid ∧
      ∃ home, w₀.disk.FoundAt r.root home := by
  obtain ⟨-, ⟨start, sink, rfl⟩, b, mode, houses, shows⟩ :=
    setUp_shows parse w _ w₀ ⟨read, tree, working⟩ setUp
  have plain := shows.1
  have sound : ∀ p : Path, w₀.disk.IsSound p := fun p => .of_working plain.tree plain.working
  have lhs := houses.names plain .lhs
  rw [environment, Environment.side_inside] at lhs
  obtain ⟨place, root, -⟩ := lhs.of_join (sound _) (Path.isAbsolute_of_isName Side.lhs.isName)
    (Path.text_isEmpty_join isName)
  obtain ⟨home, runRoot, isDir⟩ := root.of_join (sound _) (Path.isAbsolute_of_isName isName) nonempty
  exact ⟨rfl, root.1, home, runRoot.foundAt plain.tree isDir⟩

/-- A file that can be read has the name of an entry, and the directory of its test is that entry of
the run root. Whatever is done to the disk after the test was set up, as long as the path of the run
root leads to the same directory: once the test has passed, nothing is at its path, unless a file was
there, which is reported; and no more is gone than what was in its directory, or a link that was in
its place. So it is with the run root in the end. -/
theorem removals_stay_in_run_root (r : Run) {file : Path} {text : String}
    {commands : List (Script.Command Verb)} {w : World}
    (named : ∃ (base : Path) (name : String), r.root = base.join ⟨name⟩ ∧ IsName name.toList)
    (tree : w.disk.IsTree) (working : w.disk.IsDir w.disk.workingDirectory)
    (read : w.disk.readText file = .ok text)
    (parse : Script.parse r.registry file.text text = .ok commands) :
    IsName (testName file).toList ∧
    ∀ env commands' w₀, (r.setUp file).run w = (.ok (env, commands'), w₀) →
      env.root = r.root.join ⟨testName file⟩ ∧
      ∃ home, w₀.disk.FoundAt r.root home ∧ ∀ w₁ : World, w₁.disk.FoundAt r.root home →
        (∃ w₂, Progress.step r file (.running env []) w₁ = (.finished
            (if w₁.disk.kind? (home ++ [(testName file).toList]) = some .file then
              .error (.cleanup env.name env.root (.os Errno.notDirectory)) else .ok ()), w₂) ∧
          Disk.Prunes (home ++ [(testName file).toList]) w₁.disk w₂.disk ∧
          (w₁.disk.kind? (home ++ [(testName file).toList]) ≠ some .file →
            w₂.disk.lookAt env.root = .error (.os Errno.noEntry))) ∧
        ∃ dir n w₂, w₁.disk.target .keep r.root = .ok (.name dir n false) ∧
          (dir ++ [n] = home ∨ w₁.disk.kind? (dir ++ [n]) = some .symlink) ∧
          r.removeRoot.run w₁ = (.ok (), w₂) ∧ Disk.Prunes (dir ++ [n]) w₁.disk w₂.disk ∧
          w₂.disk.lookAt r.root = .error (.os Errno.noEntry) := by
  obtain ⟨base, name, hroot, hname⟩ := named
  have isName := isName_of_readText (.of_working tree working) read
  refine ⟨isName, fun env commands' w₀ setUp => ?_⟩
  have nonempty : r.root.text.isEmpty = false := hroot ▸ Path.text_isEmpty_join hname
  obtain ⟨root, valid, home, found⟩ := setUp_found nonempty isName tree working read parse setUp
  refine ⟨root, home, found, fun w₁ found₁ => ⟨?_, ?_⟩⟩
  · obtain ⟨w₂, hcleanUp, prunes, gone⟩ := Environment.cleanUp_at root isName valid found₁
    refine ⟨w₂, ?_, prunes, gone⟩
    rw [Progress.step_nil, hcleanUp]
  · obtain ⟨dir, w₂, removed⟩ := removeRoot_at hroot hname found₁
    exact ⟨dir, name.toList, w₂, removed⟩

/-- The directory of a test was replaced by a link to another directory: only the link goes. -/
theorem removal_of_link_stays_in_run_root :
    let entry : Node → Entry := fun node => ⟨node, 0o755, ⟨0, 0⟩, ⟨0, 0⟩⟩
    let world : List (Location × Entry) → World := fun entries =>
      ⟨⟨⟨([], entry .directory) :: entries, 1, []⟩, []⟩, .seeded 0, fun n => ⟨n, 0⟩, 0⟩
    let w := world [(["a.t".toList], entry (.file 0 "sync\n".toUTF8.data))]
    let w₁ := world [(["run".toList], entry .directory),
      (["run".toList, "a.t".toList], entry (.symlink ⟨"/data"⟩)),
      (["data".toList], entry .directory), (["data".toList, "f".toList], entry (.file 0 #[]))]
    let r : Run := ⟨⟨"/run"⟩, Verb.standard, .console, 1⟩
    ∃ env commands w₀, (r.setUp ⟨"/a.t"⟩).run w = (.ok (env, commands), w₀) ∧
      (∃ w₂, Progress.step r ⟨"/a.t"⟩ (.running env []) w₁ = (.finished (.ok ()), w₂) ∧
        w₂.disk.lookAt env.root = .error (.os Errno.noEntry) ∧
        w₂.disk.kind? ["data".toList, "f".toList] = some .file) ∧
      ∃ w₂, r.removeRoot.run w₁ = (.ok (), w₂) ∧
        w₂.disk.kind? ["data".toList, "f".toList] = some .file := by
  intro entry world w w₁ r
  have tree : w.disk.IsTree := .of_entries (by decide) rfl (by decide)
  have read : w.disk.readText ⟨"/a.t"⟩ = .ok "sync\n" := by rfl
  have parse : Script.parse r.registry "/a.t" "sync\n" =
      .ok [⟨⟨"sync", Verb.stamp "sync"⟩, "sync", [], 1⟩] := by rfl
  have hok : ((r.setUp ⟨"/a.t"⟩).run w).1.toOption.isSome = true := by decide +kernel
  have hhome : ((r.setUp ⟨"/a.t"⟩).run w).2.disk.target .follow r.root =
      .ok (.name [] "run".toList false) := eq_ok_of_toOption (by decide +kernel)
  have hdir : ((r.setUp ⟨"/a.t"⟩).run w).2.disk.IsDir ["run".toList] := by decide +kernel
  obtain ⟨-, onward⟩ := @removals_stay_in_run_root r ⟨"/a.t"⟩ _ _ w ⟨⟨"/"⟩, "run", rfl, by decide⟩
    tree (by decide) read parse
  generalize (r.setUp ⟨"/a.t"⟩).run w = x at hok hhome hdir onward ⊢
  obtain ⟨x, w₀⟩ := x
  cases x with
  | error e => cases hok
  | ok x =>
  obtain ⟨-, home, found, later⟩ := onward x.1 x.2 w₀ rfl
  obtain rfl : home = ["run".toList] := found.unique ⟨_, hhome, rfl, hdir⟩
  have found₁ : w₁.disk.FoundAt r.root ["run".toList] :=
    ⟨.name [] "run".toList false, eq_ok_of_toOption (by decide +kernel), rfl, by decide⟩
  obtain ⟨⟨w₂, hstep, prunes, gone⟩, dir, n, w₃, htarget, -, hremove, prunes', -⟩ :=
    later w₁ found₁
  have hplace : w₁.disk.target .keep r.root = .ok (.name [] "run".toList false) :=
    eq_ok_of_toOption (by decide +kernel)
  obtain ⟨rfl, rfl, -⟩ := Target.name.inj (Except.ok.inj (htarget.symm.trans hplace))
  have hfile : w₁.disk.kind? ["data".toList, "f".toList] = some .file := by decide
  have hlink : w₁.disk.kind? ["run".toList, "a.t".toList] ≠ some .file := by decide
  have hfinished : Progress.step r ⟨"/a.t"⟩ (.running x.1 []) w₁ = (.finished (.ok ()), w₂) := by
    rw [hstep, if_neg]
    exact hlink
  refine ⟨x.1, x.2, w₀, rfl, ⟨w₂, hfinished, gone hlink, ?_⟩, w₃, hremove, ?_⟩
  · obtain hsame | ⟨-, below⟩ := prunes.gone ["data".toList, "f".toList]
    · exact hsame.trans hfile
    · exact absurd below (by decide)
  · obtain hsame | ⟨-, below⟩ := prunes'.gone ["data".toList, "f".toList]
    · exact hsame.trans hfile
    · exact absurd below (by decide)

end Run

end TwinTrees
