import TwinTrees.Proofs.Tree.Repeating
import TwinTrees.Verb.Copy

/-!
# Running `clone` again

After `clone` has succeeded it can be run again with the same arguments, and leaves everything as it is
(`Verb.copy_repeats`), if it copies no link and not the log, and has not changed what it copies. Without
that a second run can fail, and it can copy something else than the first one did
(`Verb.copy_not_repeatable`).
-/

namespace TwinTrees

open Disk (Leads Sources)

variable {env : Environment} {arguments : List String} {name : String} {S : Location → Prop}
  {last : Disk}

namespace Verb

/-- The paths of the entries that `clone` copies with all that is below them. -/
def copiedPaths (env : Environment) (arguments : List String) : List Path :=
  if arguments.isEmpty then [env.lhs] else arguments.map (env.resolve .lhs)

/-- The location is that of an entry that `clone` copies, or below it. -/
def Copies (env : Environment) (arguments : List String) (d : Disk) (l : Location) : Prop :=
  ∃ p ∈ copiedPaths env arguments, ∃ root e, d.lookAt p = .ok (root, e) ∧ root <+: l

end Verb

namespace Grows

theorem copyFound (env : Environment) (target source : Path) (e : Entry) :
    Grows (do
      env.write (.copy source target)
      if e.node.kind = .directory then Tree.copyTree target source
      else Tree.copyEntry target source) := by
  refine (write env _).bind fun _ => ?_
  split
  · exact copyTree target source
  · exact copyEntry target source

theorem copyNamed (env : Environment) (name : String) : Grows (Verb.copyNamed env name) :=
  (ask _).bind fun _ => ((ask _).mapError _).bind fun x => copyFound env _ _ x.2

theorem copy (env : Environment) (arguments : List String) : Grows (Verb.copy env arguments) := by
  unfold Verb.copy
  split
  · exact (write env _).bind fun _ => copyTree env.rhs env.lhs
  · exact forM fun name _ => copyNamed env name

end Grows

namespace Repeats

theorem copyNamed (sources : Sources S last) (notLog : ∀ l, S l → ¬ env.sink.IsAt l)
    (leads : Leads S false last (env.resolve .lhs name)) :
    Repeats env.sink S last (Verb.copyNamed env name) (Verb.copyNamed env name) := by
  refine ask (Grows.copyNamed env name) fun _ _ _ _ _ _ h => ⟨(), h, ?_⟩
  refine ask_mapError (((Grows.ask _).mapError _).bind fun x => Grows.copyFound env _ _ x.2) ?_
  rintro a b ⟨l, e⟩ - onto replay hlook
  obtain ⟨-, -, e', hlook', hshown⟩ := lookAt_again sources leads onto replay hlook
  refine ⟨(l, e'), hlook', (write notLog _).bind ?_⟩
  simp only [Node.kind_eq_of_shown hshown]
  split
  · exact copyTree sources leads
  · exact copyEntry sources leads

theorem copy (sources : Sources S last) (notLog : ∀ l, S l → ¬ env.sink.IsAt l)
    (leads : ∀ p ∈ Verb.copiedPaths env arguments, Leads S false last p) :
    Repeats env.sink S last (Verb.copy env arguments) (Verb.copy env arguments) := by
  unfold Verb.copiedPaths at leads
  unfold Verb.copy
  split at leads
  · next hnone =>
    rw [if_pos hnone]
    exact (write notLog _).bind (copyTree sources (leads env.lhs List.mem_cons_self))
  · next hnone =>
    rw [if_neg hnone]
    exact forM fun name hname => copyNamed sources notLog (leads _ (List.mem_map_of_mem hname))

end Repeats

namespace Verb

/-- When `clone` has succeeded, it succeeds again with the same arguments, and leaves the kinds and the
bits of all entries as they are, the targets of links and the bytes of files, but for those of the log.
Among the entries that it copies there must be no link and not the log, and the first run must have left
them as they were. -/
theorem copy_repeats (env : Environment) (arguments : List String) {w w' : World}
    (tree : w.disk.IsTree) (working : w.disk.IsDir w.disk.workingDirectory)
    (hrun : (copy env arguments).run w = (.ok (), w'))
    (unchanged : ∀ l, Copies env arguments w'.disk l → w'.disk.shown? l = w.disk.shown? l)
    (noLink : ∀ l, Copies env arguments w'.disk l → w'.disk.kind? l ≠ some .symlink)
    (notLog : ∀ l, Copies env arguments w'.disk l → ¬ env.sink.IsAt l) :
    ∃ w'', (copy env arguments).run w' = (.ok (), w'') ∧
      (∀ l, w''.disk.kind? l = w'.disk.kind? l ∧
        (w''.disk.get? l).map Entry.mode = (w'.disk.get? l).map Entry.mode) ∧
      ∀ l, ¬ env.sink.IsAt l →
        (w''.disk.get? l).map (Entry.shown false) = (w'.disk.get? l).map (Entry.shown false) := by
  obtain ⟨usable, -⟩ := (Grows.copy env arguments).of_run ⟨tree, working⟩ hrun
  have sources : Sources (Copies env arguments w'.disk) w'.disk := by
    refine ⟨usable.1, ?_, noLink⟩
    rintro l m ⟨p, hp, root, e, hlook, hroot⟩ hm
    exact ⟨p, hp, root, e, hlook, hroot.trans hm⟩
  have repeats : Repeats env.sink (Copies env arguments w'.disk) w'.disk (copy env arguments)
      (copy env arguments) :=
    .copy sources notLog fun p hp root e hlook => ⟨p, hp, root, e, hlook, List.prefix_rfl⟩
  obtain ⟨w'', hrun', replay⟩ :=
    repeats.again ⟨tree, working⟩ hrun (.refl _) (.start usable.1 unchanged)
  exact ⟨w'', hrun', fun l => ⟨replay.kind?_eq l, replay.modes l⟩, fun l => replay.shown_eq⟩

/-- A directory and a file are copied again, the file to where a link of the right side leads. -/
theorem copy_repeats_through_link :
    let entry : Node → Entry := fun node => ⟨node, 0o755, ⟨0, 0⟩, ⟨0, 0⟩⟩
    let d : Disk := ⟨[([], entry .directory), (["l".toList], entry .directory),
      (["l".toList, "e".toList], entry .directory),
      (["l".toList, "e".toList, "g".toList], entry (.file 0 #[2, 3])),
      (["l".toList, "f".toList], entry (.file 1 #[1])),
      (["r".toList], entry .directory), (["o".toList], entry (.file 2 #[7])),
      (["r".toList, "f".toList], entry (.symlink ⟨"/o"⟩))], 3, []⟩
    let w : World := ⟨⟨d, []⟩, .seeded 0, fun n => ⟨n + 1, 0⟩, 0⟩
    let env : Environment := ⟨"a.t", ⟨"/"⟩, ⟨"/l"⟩, ⟨"/r"⟩, ⟨9, 0⟩, 1, .console⟩
    let w' : World := ((copy env ["e", "f"]).run w).2
    (d.IsTree ∧ d.IsDir d.workingDirectory ∧ (copy env ["e", "f"]).run w = (.ok (), w') ∧
      ∀ l, Copies env ["e", "f"] w'.disk l →
        w'.disk.shown? l = d.shown? l ∧ w'.disk.kind? l ≠ some .symlink ∧ ¬ env.sink.IsAt l) ∧
    ∃ w'', (copy env ["e", "f"]).run w' = (.ok (), w'') ∧
      w''.disk.kind? ["r".toList, "e".toList, "g".toList] = some .file ∧
      (w''.disk.get? ["o".toList]).map (Entry.shown false) =
        some ⟨.file 0 #[1], 0o755, ⟨0, 0⟩, ⟨0, 0⟩⟩ := by
  intro entry d w env w'
  have tree : d.IsTree := .of_entries (by decide) rfl (by decide)
  have hrun : (copy env ["e", "f"]).run w = (.ok (), w') :=
    Action.run_eq_of_toOption (by decide +kernel)
  have left : ∀ l, ["l".toList] <+: l →
      w'.disk.shown? l = d.shown? l ∧ w'.disk.kind? l ≠ some .symlink := by
    have listed : ∀ l ∈ d.entries.map Prod.fst ++ w'.disk.entries.map Prod.fst, ["l".toList] <+: l →
        w'.disk.shown? l = d.shown? l ∧ w'.disk.kind? l ≠ some .symlink := by decide +kernel
    intro l hl
    by_cases hmem : l ∈ d.entries.map Prod.fst ++ w'.disk.entries.map Prod.fst
    · exact listed l hmem hl
    · have free : ∀ u : Disk, l ∉ u.entries.map Prod.fst → u.node? l = none := by
        intro u hu
        by_contra hnode
        obtain ⟨e, he⟩ := Option.ne_none_iff_exists'.1 (mt Disk.node?_eq_none_iff.2 hnode)
        exact hu (List.mem_map_of_mem (f := Prod.fst) (Disk.mem_of_get? he))
      have free' := free w'.disk fun h => hmem (List.mem_append_right _ h)
      rw [Disk.shown?_eq_none_iff.2 free', Disk.kind?_eq_none_iff.2 free',
        Disk.shown?_eq_none_iff.2 (free d fun h => hmem (List.mem_append_left _ h))]
      exact ⟨rfl, nofun⟩
  have copies : ∀ l, Copies env ["e", "f"] w'.disk l → ["l".toList] <+: l := by
    rintro l ⟨p, hp, root, e, hlook, hroot⟩
    have hall : ∀ p ∈ copiedPaths env ["e", "f"],
        (w'.disk.lookAt p).toOption.all (fun x => decide (["l".toList] <+: x.1)) = true := by
      decide +kernel
    have hleft := hall p hp
    rw [hlook] at hleft
    exact (of_decide_eq_true hleft).trans hroot
  have notLog : ∀ l, ¬ env.sink.IsAt l := by
    rintro l ⟨path, f, hsink, -⟩
    cases hsink
  obtain ⟨w'', hrun', hkinds, hshown⟩ := copy_repeats env ["e", "f"] (w := w) tree (by decide) hrun
    (fun l hl => (left l (copies l hl)).1) (fun l hl => (left l (copies l hl)).2) fun l _ => notLog l
  refine ⟨⟨tree, by decide, hrun, fun l hl => ?_⟩, w'', hrun', ?_, ?_⟩
  · obtain ⟨hsame, hlink⟩ := left l (copies l hl)
    exact ⟨hsame, hlink, notLog l⟩
  · rw [(hkinds _).1]
    decide +kernel
  · rw [hshown _ (notLog _)]
    decide +kernel

/-- A link is not copied to where its copy is; a file is copied that was overwritten, through a link of the
right side, after it had been copied; and the log is longer when it is copied again. -/
theorem copy_not_repeatable :
    let entry : Node → Entry := fun node => ⟨node, 0o755, ⟨0, 0⟩, ⟨0, 0⟩⟩
    let world : List (Location × Entry) → World := fun entries => ⟨⟨⟨[([], entry .directory),
      (["l".toList], entry .directory), (["r".toList], entry .directory)] ++ entries, 9, []⟩, []⟩,
      .seeded 0, fun _ => ⟨0, 0⟩, 0⟩
    let env : LogSink → Environment := fun sink => ⟨"a.t", ⟨"/"⟩, ⟨"/l"⟩, ⟨"/r"⟩, ⟨9, 0⟩, 1, sink⟩
    let first : LogSink → List String → World → Except CommandError Unit × World :=
      fun sink arguments w => (copy (env sink) arguments).run w
    let second : LogSink → List String → World → Except CommandError Unit × World :=
      fun sink arguments w => (copy (env sink) arguments).run (first sink arguments w).2
    let link := world [(["l".toList, "k".toList], entry (.symlink ⟨"f"⟩))]
    let through := world [(["l".toList, "x".toList], entry (.file 0 #[1])),
      (["l".toList, "y".toList], entry (.file 1 #[2, 3])),
      (["r".toList, "x".toList], entry (.symlink ⟨"/l/y"⟩))]
    let logged := world [(["log".toList], entry (.file 0 #[])),
      (["l".toList, "k".toList], entry (.symlink ⟨"/"⟩))]
    let sink : LogSink := .file ⟨"/log"⟩ ⟨["log".toList], 0⟩
    let copied : Location := ["r".toList, "k".toList, "log".toList]
    ((first .console ["k"] link).1 = .ok () ∧
      (second .console ["k"] link).1 = .error (.io "symlink" ⟨"/r/k"⟩ (.os Errno.alreadyExists))) ∧
    ((first .console ["y", "x"] through).1 = .ok () ∧ (second .console ["y", "x"] through).1 = .ok () ∧
      (first .console ["y", "x"] through).2.disk.shown? ["r".toList, "y".toList] =
        some (.file 0 #[2, 3]) ∧
      (second .console ["y", "x"] through).2.disk.shown? ["r".toList, "y".toList] =
        some (.file 0 #[1])) ∧
    (first sink ["k/log"] logged).1 = .ok () ∧ (second sink ["k/log"] logged).1 = .ok () ∧
      (second sink ["k/log"] logged).2.disk.shown? copied ≠
        (first sink ["k/log"] logged).2.disk.shown? copied := by
  intro entry world env first second link through logged sink copied
  refine ⟨by decide +kernel, by decide +kernel, ?_⟩
  -- what the first run leaves, so that the second one starts on a disk that is written out
  let event := LogSink.recordBytes ⟨0, 0⟩ (.copy ⟨"/l/k/log"⟩ ⟨"/r/k/log"⟩)
  let d : Disk := ⟨[(["r".toList, "k".toList, "log".toList], ⟨.file 9 event, 0o600, ⟨0, 0⟩, ⟨0, 0⟩⟩),
    (["r".toList, "k".toList], ⟨.directory, 0o700, ⟨0, 0⟩, ⟨0, 0⟩⟩),
    ([], entry .directory), (["l".toList], entry .directory), (["r".toList], entry .directory),
    (["log".toList], entry (.file 0 event)), (["l".toList, "k".toList], entry (.symlink ⟨"/"⟩))], 10, []⟩
  have left : (first sink ["k/log"] logged).2 = { (first sink ["k/log"] logged).2 with disk := d } := by
    have hdisk : (first sink ["k/log"] logged).2.disk = d := by decide +kernel
    rw [← hdisk]
  refine ⟨by decide +kernel, ?_, ?_⟩
  · show ((copy (env sink) ["k/log"]).run (first sink ["k/log"] logged).2).1 = .ok ()
    rw [left]
    decide +kernel
  · show ((copy (env sink) ["k/log"]).run (first sink ["k/log"] logged).2).2.disk.shown? copied ≠ _
    rw [left]
    decide +kernel

end Verb

end TwinTrees
