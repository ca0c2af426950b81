import TwinTrees.Proofs.Base.Lockstep

/-!
# The directory of a test after the set-up

Wherever the run root is, the set-up of a test makes a directory where nothing was, and both sides in
it with the bits of that directory (`Base.Fresh`); the log is another file in it. So right after the
set-up the sides are plain and look the same (`Base.build`).
-/

namespace TwinTrees

namespace Base

open TwinTrees.Action (Triple)

variable {b : Base} {mode : Mode} {d d' : Disk} {side : Side} {n : Name} {t : Time} {dir : Location}
  {p : Path} {φ : View → Prop}

/-- A disk on which the directory of a test was just made: at most the sides are in it, and they are
directories with the same bits. -/
structure Fresh (b : Base) (mode : Mode) (d : Disk) : Prop extends b.Rests d where
  handsDown : HandsDown mode
  home : ∀ e, d.get? b.location = some e → e.mode = mode
  below : ∀ m e, m ≠ [] → d.get? (b.location ++ m) = some e →
    (∃ side : Side, m = [side.name.toList]) ∧ e.node = .directory ∧ e.mode = mode

/-- An entry beside the sides does not show. -/
theorem Shows.addBeside (h : b.Shows mode φ d) (free : d.node? (b.location ++ [n]) = none)
    (isName : IsName n) (hn : ∀ side : Side, n ≠ side.name.toList) {node : Node} {bits : Mode} :
    b.Shows mode φ (d.addEntry t b.location n node bits) := by
  have hother : ∀ side m, b.onSide side m ≠ b.location ++ [n] ∧ b.onSide side m ≠ b.location := by
    intro side m
    constructor
    · intro heq
      exact hn side (List.cons.inj (List.append_cancel_left heq)).1.symm
    · simp [onSide]
  have hlook : b.look (d.addEntry t b.location n node bits) = b.look d := by
    funext side m
    rw [look, Disk.node?_addEntry, if_neg (hother side m).1, look]
  have hrests : b.Rests (d.addEntry t b.location n node bits) := by
    refine h.1.of_node? (h.1.tree.addEntry h.1.stands.isDir free isName) rfl fun l hl => ?_
    rw [Disk.node?_addEntry, if_neg]
    rintro rfl
    exact b.not_off_append (List.cons_ne_nil _ _) hl
  refine ⟨h.1.change hrests (fun side => ?_) fun side m e he => .inl ⟨e, ?_, rfl, rfl⟩, hlook ▸ h.2⟩
  · rw [Disk.IsDir, Disk.node?_addEntry, if_neg (hother side []).1]
    exact h.1.sides side
  · rwa [Disk.get?_addEntry, if_neg (hother side m).1, if_neg (hother side m).2] at he

namespace Fresh

/-- A directory that was made where nothing was. -/
theorem of_made (tree : d.IsTree) (working : d.IsDir d.workingDirectory)
    (made : d.Made t p Tree.directoryMode d' dir n) :
    ∃ k, (Base.mk p (dir ++ [n]) k).Fresh (d.directoryMode dir Tree.directoryMode) d' := by
  obtain ⟨before, hsteps, k, few, route⟩ := made.steps
  let b : Base := ⟨p, dir ++ [n], k⟩
  have hnothing : ∀ {m}, m ≠ [] → d.node? (dir ++ [n] ++ m) = none := by
    intro m hm
    refine tree.node?_eq_none_of_prefix (List.prefix_append _ m) (by simpa using hm) ?_
    rw [Disk.IsDir, made.free]
    exact fun h => by cases h
  have hoff : ∀ {l node}, d.node? l = some node → b.Off l := by
    rintro l node hl ⟨⟨m, rfl⟩, hne⟩
    rw [hnothing fun hnil => hne (by simp [b, hnil])] at hl
    cases hl
  have hkeep : ∀ {l node}, d.node? l = some node → (d'.part b.Off).node? l = some node := by
    intro l node hl
    rw [Disk.node?_part, if_pos (hoff hl), made.node?_of_some hl]
  refine ⟨k, {
    tree := (made.isSound (.of_working tree working)).toIsTree
    working := ?_
    few := few
    off := ?_
    route := ?_
    handsDown := d.handsDown_directoryMode dir
    home := fun e he => ?_
    below := fun m e hm he => ?_ }⟩
  · rw [made.workingDirectory]
    exact made.node?_of_some working
  · rw [made.workingDirectory]
    exact hoff working
  · rw [made.workingDirectory]
    show (d'.part b.Off).Route k (p.startFrom d.workingDirectory) p.steps (dir ++ [n])
    rw [hsteps]
    refine (route.mono (fun _ => hkeep) fun _ _ => hkeep).append (.single ?_)
    have hself : b.Off (dir ++ [n]) := fun h => h.2 rfl
    rw [Disk.IsDir, Disk.node?_part, if_pos hself, made.node?, if_pos rfl]
  · rw [made.eq, Disk.get?_addEntry, if_pos rfl] at he
    cases he
    rfl
  · have hnode := Disk.node?_of_get? he
    rw [made.node?, if_neg (by simpa using hm), hnothing hm] at hnode
    cases hnode

/-- The sides are made in the directory of the test. -/
theorem making (side : Side) :
    b.Making Tree.directoryMode [side.name.toList] (b.Fresh mode) where
  stands _ h := h.stands
  noLink d h m _ hne old hold := by
    obtain ⟨e, he, hnode⟩ := Disk.node?_eq_some_iff.1 hold
    rw [(h.below m e hne he).2.1] at hnode
    cases hnode
  made t d above n h hl isName isDir free := by
    obtain ⟨rfl, rfl⟩ : above = [] ∧ n = side.name.toList := by
      have hlength := hl.length_le
      rw [List.length_append] at hlength
      obtain rfl : above = [] := List.eq_nil_of_length_eq_zero (by simpa using hlength)
      exact ⟨rfl, (List.cons_prefix_cons.1 hl).1⟩
    rw [List.append_nil] at isDir free ⊢
    obtain ⟨e, he, -⟩ := Disk.isDir_iff.1 isDir
    rw [Disk.directoryMode_of_handsDown h.handsDown he (h.home e he)]
    have hrests : b.Rests (d.addEntry t b.location side.name.toList .directory mode) := by
      refine h.toRests.of_node? (h.tree.addEntry isDir free isName) rfl fun l hl => ?_
      rw [Disk.node?_addEntry, if_neg]
      rintro rfl
      exact b.not_off_append (List.cons_ne_nil _ _) hl
    refine { hrests with handsDown := h.handsDown, home := fun e' he' => ?_, below := ?_ }
    · rw [Disk.get?_addEntry, if_neg (by simp), if_pos rfl] at he'
      obtain ⟨old, hold, rfl⟩ := Option.map_eq_some_iff.1 he'
      exact h.home old hold
    · intro m e' hm he'
      rw [Disk.get?_addEntry, if_neg (show b.location ++ m ≠ b.location by simpa using hm)] at he'
      split at he'
      · next heq =>
        cases he'
        exact ⟨⟨side, List.append_cancel_left heq⟩, rfl, rfl⟩
      · exact h.below m e' hm he'

/-- A side is made. -/
theorem makeSide (hp : b.Spells p [side.name.toList]) {other : Side → Prop} :
    Triple (fun d => b.Fresh mode d ∧ ∀ s, other s → d.IsDir (b.onSide s []))
      (Tree.makeDirectories p Tree.directoryMode) fun _ d => (b.Fresh mode d ∧
        ∀ s, other s ∨ s = side → d.IsDir (b.onSide s [])) ∧ p.IsValid := by
  have h : b.Making Tree.directoryMode [side.name.toList]
      fun d => b.Fresh mode d ∧ ∀ s, other s → d.IsDir (b.onSide s []) := by
    have making : b.Making Tree.directoryMode [side.name.toList] (b.Fresh mode) := making side
    refine ⟨fun d h => h.1.stands, fun d h => making.noLink d h.1, ?_⟩
    intro t d above n h hl isName isDir free
    refine ⟨making.made t d above n h.1 hl isName isDir free, fun s hs => ?_⟩
    rw [Disk.IsDir, Disk.node?_addEntry]
    split
    · rfl
    · exact h.2 s hs
  refine (h.isDir (fun d h => h.1.working) hp (List.cons_ne_nil _ _)).post ?_
  rintro _ d ⟨⟨fresh, hsides⟩, isDir, valid⟩
  refine ⟨⟨fresh, fun s hs => ?_⟩, valid⟩
  rcases hs with hs | rfl
  · exact hsides s hs
  · exact isDir

/-- With both sides there, nothing is on them. -/
theorem shows (h : b.Fresh mode d) (sides : ∀ side, d.IsDir (b.onSide side [])) :
    b.Shows mode View.Same d := by
  have hside : ∀ side m e, d.get? (b.onSide side m) = some e →
      m = [] ∧ e.node = .directory ∧ e.mode = mode := by
    intro side m e he
    obtain ⟨⟨other, hm⟩, hnode, hmode⟩ := h.below _ e (List.cons_ne_nil _ _) he
    exact ⟨(List.cons.inj hm).2, hnode, hmode⟩
  refine ⟨⟨h.toRests, sides, h.handsDown, fun side m old hold => ?_, fun side m e he => ?_⟩,
    fun m => ?_⟩
  · obtain ⟨e, he, hnode⟩ := Disk.node?_eq_some_iff.1 hold
    rw [(hside side m e he).2.1] at hnode
    cases hnode
  · obtain ⟨-, hnode, hmode⟩ := hside side m e he
    rw [hmode, hnode]
    rfl
  · by_cases hm : m = []
    · rw [hm, look_eq_directory_iff.2 (sides .rhs), look_eq_directory_iff.2 (sides .lhs)]
    · have hnone : ∀ side, b.look d side m = none := by
        intro side
        rw [look_eq_none_iff, Disk.node?_eq_none_iff, Option.eq_none_iff_forall_ne_some]
        exact fun e he => hm (hside side m e he).1
      rw [hnone, hnone]

/-- The log of the test is opened. -/
theorem openLog (hp : b.Spells (p.join ⟨LogSink.fileName⟩) [LogSink.fileName.toList]) :
    Triple (fun d => b.Fresh mode d ∧ ∀ side, d.IsDir (b.onSide side [])) (LogSink.openIn p)
      fun sink d => b.Shows mode View.Same d ∧
        ∀ path f, sink = .file path f → f.location = b.location ++ [LogSink.fileName.toList] := by
  unfold LogSink.openIn
  simp only
  refine Triple.bind (Q := fun f d => f.location = b.location ++ [LogSink.fileName.toList] ∧
    b.Shows mode View.Same d) (Triple.request ?_) fun f => Triple.pure fun d h => ⟨h.2, ?_⟩
  · rintro t d f d' ⟨fresh, sides⟩ hopen
    have hnothing : d.node? (b.location ++ [LogSink.fileName.toList]) = none := by
      rw [Disk.node?_eq_none_iff, Option.eq_none_iff_forall_ne_some]
      intro e he
      obtain ⟨⟨side, hside⟩, -⟩ := fresh.below _ e (List.cons_ne_nil _ _) he
      cases side <;> exact absurd (List.cons.inj hside).1 (by decide)
    obtain ⟨dir, n, htarget, hf, hcases⟩ := Disk.of_openOrCreate hopen
    have way : d.OpenWay b.location [LogSink.fileName.toList] := by
      intro m hm hne hend
      obtain ⟨c, m, rfl⟩ := List.exists_cons_of_ne_nil hne
      obtain ⟨rfl, hnil⟩ := List.cons_prefix_cons.1 hm
      obtain rfl := List.prefix_nil.1 hnil
      exact absurd rfl hend
    have noLink : ∀ old, d.node? (b.location ++ [LogSink.fileName.toList]) ≠ some (.symlink old) := by
      intro old hold
      rw [hnothing] at hold
      cases hold
    obtain ⟨above, split, rfl, -, -⟩ := hp.of_target_name fresh.stands (List.cons_ne_nil _ _) way
      (.inr noLink) htarget
    obtain ⟨rfl, hn⟩ := List.append_inj'
      (show [] ++ [LogSink.fileName.toList] = above ++ [n] from split) rfl
    cases hn
    rw [List.append_nil] at hf hcases
    refine ⟨hf, ?_⟩
    rcases hcases with ⟨free, -, rfl⟩ | ⟨bytes, hfile, -⟩
    · have isName := hp.isName List.mem_cons_self free.short
      exact ((fresh.shows sides).addBeside free.free isName
        fun side => by cases side <;> decide).withNextId _
    · rw [hnothing] at hfile
      cases hfile
  · rintro path g heq
    cases heq
    exact h.1

end Fresh

/-! ## The environment -/

/-- Where a test can act whose environment this is. -/
structure Houses (b : Base) (env : Environment) : Prop where
  fits : b.Fits env
  logs : b.Logs env
  valid : ∀ side, (env.side side).IsValid

/-- Making directories leaves a tree, and the working directory in it. -/
theorem makeDirectories_sound (p : Path) (bits : Mode) :
    Triple (fun d => d.IsTree ∧ d.IsDir d.workingDirectory) (Tree.makeDirectories p bits)
      fun _ d => d.IsTree ∧ d.IsDir d.workingDirectory := by
  intro w x w' hw hrun
  have hkept : _ ∧ _ := @Tree.makeDirectoriesAlong_keeps bits
    (fun w => w.disk.IsTree ∧ w.disk.IsDir w.disk.workingDirectory) p.ancestors
    (fun q _ w hw => ?_) w hw
  · rw [show Tree.makeDirectoriesAlong bits p.ancestors = Tree.makeDirectories p bits from rfl,
      hrun] at hkept
    exact hkept
  · rw [Action.run_change]
    cases hmake : w.disk.makeDirectory (Action.time w) q bits with
    | error fault => exact hw
    | ok d =>
      obtain ⟨dir, n, made⟩ := Disk.made_of_makeDirectory (.of_working hw.1 hw.2) hmake
      refine ⟨(made.isSound (.of_working hw.1 hw.2)).toIsTree, ?_⟩
      show d.IsDir d.workingDirectory
      rw [made.workingDirectory]
      exact made.node?_of_some hw.2

/-- Once the environment of a test is built, its sides are there and nothing is on them. -/
theorem build (runRoot : Path) (name : String) (target : LogTarget) (workers : Nat) :
    Triple (fun d => d.IsTree ∧ d.IsDir d.workingDirectory)
      (Environment.build runRoot name target workers) fun env d =>
        (∃ start sink, env = .inside runRoot name workers start sink) ∧
          ∃ (b : Base) (mode : Mode), b.Houses env ∧ b.Shows mode View.Same d := by
  unfold Environment.build Environment.build.part
  simp only
  refine (Triple.mapError (makeDirectories_sound _ _) _).bind fun _ => ?_
  refine Triple.bind (Q := fun _ d => ∃ x : Base × Mode,
    x.1.path = runRoot.join ⟨name⟩ ∧ x.1.Fresh x.2 d) (Triple.mapError (Triple.change ?_) _)
      fun _ => Triple.ofExists ?_
  · rintro t d d' ⟨tree, working⟩ hmake
    obtain ⟨dir, n, made⟩ := Disk.made_of_makeDirectory (.of_working tree working) hmake
    obtain ⟨k, fresh⟩ := Fresh.of_made tree working made
    exact ⟨(_, _), rfl, fresh⟩
  rintro ⟨b, mode⟩
  refine Triple.given (fun _ h => h.1) fun hpath => ?_
  have hside : ∀ (side : Side) (other : Side → Prop),
      Triple (fun d => b.Fresh mode d ∧ ∀ s, other s → d.IsDir (b.onSide s []))
        ((Tree.makeDirectories ((runRoot.join ⟨name⟩).join ⟨side.name⟩) Tree.directoryMode).mapError
          (RunError.environment name (if side = .lhs then "LHS" else "RHS")))
        fun _ d => (b.Fresh mode d ∧ ∀ s, other s ∨ s = side → d.IsDir (b.onSide s [])) ∧
          ((runRoot.join ⟨name⟩).join ⟨side.name⟩).IsValid := by
    intro side other
    rw [← hpath]
    exact Triple.mapError (Fresh.makeSide (Spells.entry b side.isName)) _
  refine ((hside .lhs fun _ => False).pre fun d h => ⟨h.2, fun _ => False.elim⟩).bind
    fun _ => Triple.given (fun _ h => h.2) fun hleft => ?_
  refine ((hside .rhs _).pre fun d h => h.1).bind fun _ =>
    Triple.given (fun _ h => h.2) fun hright => ?_
  have hend : ∀ sink : LogSink,
      Triple (fun d => b.Shows mode View.Same d ∧ ∀ path f, sink = .file path f →
          f.location = b.location ++ [LogSink.fileName.toList])
        (Action.now >>= fun start => pure (.inside runRoot name workers start sink) :
          Action RunError Environment)
        fun env d => (∃ start sink, env = .inside runRoot name workers start sink) ∧
          ∃ (b : Base) (mode : Mode), b.Houses env ∧ b.Shows mode View.Same d := by
    intro sink
    refine Triple.now.bind fun start => Triple.pure fun d h => ⟨⟨start, sink, rfl⟩, b, mode, ?_, h.1⟩
    refine ⟨⟨fun side => ?_⟩, h.2, fun side => ?_⟩
    · rw [hpath, Environment.side_inside]
    · cases side
      · exact hleft
      · exact hright
  have hsides : ∀ d, (b.Fresh mode d ∧ ∀ s, (False ∨ s = .lhs) ∨ s = .rhs →
      d.IsDir (b.onSide s [])) → b.Fresh mode d ∧ ∀ s, d.IsDir (b.onSide s []) := by
    rintro d ⟨fresh, sides⟩
    exact ⟨fresh, fun s => sides s (by cases s <;> simp)⟩
  cases target with
  | console =>
    refine (hend .console).pre fun d h => ?_
    obtain ⟨fresh, sides⟩ := hsides d h.1
    exact ⟨fresh.shows sides, fun path f heq => by cases heq⟩
  | file =>
    have hlog : b.Spells ((runRoot.join ⟨name⟩).join ⟨LogSink.fileName⟩) [LogSink.fileName.toList] :=
      hpath ▸ Spells.entry b (by decide)
    refine (Triple.mapError (Fresh.openLog hlog) _).pre (fun d h => hsides d h.1) |>.bind hend

end Base

end TwinTrees
