import TwinTrees.Proofs.Base.View
import TwinTrees.Tree.Copy

/-!
# What actions on the sides of a test show

Each action on a plain disk leads from one condition on views to another, if it succeeds: directories
are made where nothing was, a new file is written at its name, and a copy gets the bytes of its
source. That nothing else changes is said by the conditions, which must be kept by each change that
is made on the way.
-/

namespace TwinTrees

namespace Base

open TwinTrees.Action (Always Triple)

variable {b : Base} {mode bits : Mode} {d : Disk} {side : Side} {m l more : Location} {n : Name}
  {p target source : Path} {φ ψ : View → Prop} {env : Environment} {ε : Type}

/-! ## Paths -/

namespace Plain

theorem openWay (h : b.Plain mode d) (side : Side) (m : Location) :
    d.OpenWay b.location (side.name.toList :: m) := by
  intro l hl hne _ old
  obtain ⟨c, l, rfl⟩ := List.exists_cons_of_ne_nil hne
  obtain ⟨rfl, -⟩ := List.cons_prefix_cons.1 hl
  exact h.noLink side l old

/-- What a path finds is what is at the names that it spells. -/
theorem of_find (h : b.Plain mode d) (hp : b.Spells p (side.name.toList :: m)) {follow : Bool}
    {e : Entry} (hfind : d.find follow p = .ok (l, e)) :
    l = b.onSide side m ∧ d.get? (b.onSide side m) = some e :=
  hp.get?_of_find h.stands (List.cons_ne_nil _ _) (h.openWay side m) (.inr (h.noLink side m)) hfind

/-- A path to a name leads to the side itself, or to a name in a directory of the side. -/
theorem of_target_name (h : b.Plain mode d) (hp : b.Spells p (side.name.toList :: m))
    {last : LastLink} {dir : Location} {slash : Bool}
    (htarget : d.target last p = .ok (.name dir n slash)) :
    dir ++ [n] = b.onSide side m ∧
      (m = [] ∨ ∃ above, m = above ++ [n] ∧ dir = b.onSide side above ∧ d.IsDir dir) := by
  obtain ⟨above, split, rfl, isDir, -⟩ := hp.of_target_name h.stands (List.cons_ne_nil _ _)
    (h.openWay side m) (.inr (h.noLink side m)) htarget
  refine ⟨by rw [List.append_assoc, ← split, onSide], ?_⟩
  cases above with
  | nil => exact .inl (List.cons.inj split).2
  | cons c above =>
    obtain ⟨rfl, rfl⟩ := List.cons.inj split
    exact .inr ⟨above, rfl, rfl, isDir⟩

/-- Where nothing is, a path leads to a name in a directory of the side. -/
theorem of_leadsToFree (h : b.Plain mode d) (hp : b.Spells p (side.name.toList :: m))
    {last : LastLink} {dir : Location} (free : d.LeadsToFree last p dir n) :
    ∃ above, m = above ++ [n] ∧ dir = b.onSide side above ∧ d.IsDir dir ∧
      d.node? (b.onSide side m) = none ∧ IsName n := by
  obtain ⟨slash, htarget⟩ := free.target
  obtain ⟨hloc, rfl | ⟨above, rfl, rfl, isDir⟩⟩ := h.of_target_name hp htarget
  · have hfree := free.free
    rw [hloc, show d.node? _ = _ from h.sides side] at hfree
    cases hfree
  · exact ⟨above, rfl, rfl, isDir, hloc ▸ free.free, hp.isName (by simp) free.short⟩

/-- What is above an entry of a side is a directory. -/
theorem isDir_above (h : b.Plain mode d) (there : d.node? (b.onSide side m) ≠ none) (hl : l <+: m)
    (hne : l ≠ m) : d.IsDir (b.onSide side l) :=
  h.tree.isDir_of_prefix (b.onSide_prefix side hl) (fun heq => hne (onSide_inj.1 heq)) there

end Plain

/-! ## Directories -/

/-- The log of the test is the file of that name in its directory, if it is in a file. -/
def Logs (b : Base) (env : Environment) : Prop :=
  ∀ path f, env.sink = .file path f → f.location = b.location ++ [LogSink.fileName.toList]

namespace Shows

theorem write (logs : b.Logs env) (e : Event) :
    Triple (ε := ε) (b.Shows mode φ) (env.write e) fun _ => b.Shows mode φ := by
  refine Triple.write fun path f hsink t d bytes h => ?_
  have hloc := logs path f hsink
  have hlook : b.look (d.append t f bytes) = b.look d := by
    funext side m
    rw [look, Disk.append, Disk.node?, Disk.get?_store_of_ne]
    · rfl
    · intro heq
      rw [hloc] at heq
      have hname := List.append_cancel_left heq
      cases side <;> exact absurd (List.cons.inj hname).1 (by decide)
  exact h.store (hloc ▸ b.not_off_append (by simp)) (hlook ▸ h.2)

/-- Directories are made along a path where nothing was. -/
theorem making (hmore : more <+: side.name.toList :: m)
    (hbits : bits = Tree.directoryMode ∨ bits = mode)
    (hφ : ∀ v l, φ v → side.name.toList :: l <+: more → v side l = none →
      φ (v.set side l (some .directory))) : b.Making bits more (b.Shows mode φ) where
  stands _ h := h.1.stands
  noLink d h l hl hne := by
    obtain ⟨c, l, rfl⟩ := List.exists_cons_of_ne_nil hne
    obtain ⟨rfl, -⟩ := List.cons_prefix_cons.1 (hl.trans hmore)
    exact h.1.noLink side l
  made t d above n h hl isName isDir free := by
    cases above with
    | nil =>
      obtain ⟨rfl, -⟩ := List.cons_prefix_cons.1 (hl.trans hmore)
      have hside : d.node? (b.location ++ [side.name.toList]) = some .directory := h.1.sides side
      rw [List.append_nil, hside] at free
      cases free
    | cons c above =>
      obtain ⟨rfl, -⟩ := List.cons_prefix_cons.1 (hl.trans hmore)
      have free' : d.node? (b.onSide side (above ++ [n])) = none := by
        rwa [onSide_append]
      have isDir' : d.IsDir (b.onSide side above) := isDir
      have hadd : b.Shows mode φ (d.addEntry t (b.onSide side above) n .directory mode) :=
        h.addEntry isDir' free' isName (fun h => by cases h) fun v hv hnone => hφ v _ hv hl hnone
      rw [← onSide, h.1.directoryMode isDir' hbits]
      exact hadd

theorem makeDirectories (hp : b.Spells p (side.name.toList :: m))
    (hbits : bits = Tree.directoryMode ∨ bits = mode)
    (hφ : ∀ v l, φ v → l <+: m → v side l = none → φ (v.set side l (some .directory))) :
    Triple (b.Shows mode φ) (Tree.makeDirectories p bits)
      fun _ d => b.Shows mode φ d ∧ d.IsDir (b.onSide side m) :=
  have h : b.Making bits (side.name.toList :: m) (b.Shows mode φ) :=
    making List.prefix_rfl hbits fun v l hv hl => hφ v l hv (List.cons_prefix_cons.1 hl).2
  (h.isDir (fun _ h => h.1.working) hp (List.cons_ne_nil _ _)).post fun _ _ h => ⟨h.1, h.2.1⟩

/-- The directories above an entry are made. -/
theorem makeParent (hp : b.Spells p (side.name.toList :: m))
    (hφ : ∀ v l, φ v → l <+: m → l ≠ m → v side l = none → φ (v.set side l (some .directory))) :
    Triple (b.Shows mode φ) (Tree.makeParent p) fun _ => b.Shows mode φ := by
  unfold Tree.makeParent
  cases hparent : p.parent? with
  | none => exact Triple.pure fun _ h => h
  | some q =>
    obtain ⟨above, n, hsplit⟩ : ∃ above n, side.name.toList :: m = above ++ [n] :=
      ⟨_, _, (List.dropLast_append_getLast (List.cons_ne_nil _ _)).symm⟩
    have habove : above <+: side.name.toList :: m := hsplit ▸ List.prefix_append _ _
    rw [hsplit] at hp
    have h : b.Making Tree.directoryMode above (b.Shows mode φ) := by
      refine making habove (.inl rfl) fun v l hv hl hnone => ?_
      refine hφ v l hv (List.cons_prefix_cons.1 (hl.trans habove)).2 ?_ hnone
      rintro rfl
      have hlength := hl.length_le
      rw [hsplit, List.length_append] at hlength
      exact absurd hlength (by simp)
    exact Triple.named ((h.makeDirectories (hp.parent hparent)).triple.post fun _ _ h => h.1) _ _

/-! ## Files -/

end Shows

/-- What is read from a file of a side that is held open. -/
theorem load_of_look {f : OpenFile} {bytes : Bytes} (held : d.Holds f)
    (hf : f.location = b.onSide side m) (hlook : b.look d side m = some (.file 0 bytes)) :
    d.load f = bytes := by
  obtain ⟨old, hold⟩ := held
  rw [Disk.Holds.load hold]
  rw [hf] at hold
  rw [look_of_node? hold] at hlook
  cases hlook
  rfl

namespace Shows

/-- A new empty file is held open. -/
theorem createNew (hp : b.Spells p (side.name.toList :: m))
    (hφ : ∀ v, φ v → v side m = none → ψ (v.set side m (some (.file 0 #[])))) :
    Triple (b.Shows mode φ)
      (Action.request fun t d => d.createNew t p Tree.fileMode : Action IoError OpenFile)
      fun f d => f.location = b.onSide side m ∧ d.Holds f ∧ b.Shows mode ψ d := by
  refine Triple.request fun t d f d' h hmake => ?_
  obtain ⟨dir, n, free, rfl, rfl⟩ := Disk.of_createNew hmake
  obtain ⟨above, rfl, rfl, isDir, hnone, isName⟩ := h.1.of_leadsToFree hp free
  exact ⟨(b.onSide_append side above [n]).symm, Disk.holds_addFile ..,
    h.addFile isDir hnone isName hφ⟩

/-- A file of random bytes is made, with the directories above it. -/
theorem makeFile (hp : b.Spells p (side.name.toList :: m)) (size : Nat) (time : Time)
    (hdir : ∀ v l, φ v → l <+: m → l ≠ m → v side l = none → φ (v.set side l (some .directory)))
    (hfile : ∀ v bytes, φ v → v side m = none → ψ (v.set side m (some (.file 0 bytes)))) :
    Triple (b.Shows mode φ) (Tree.makeFile p size time) fun _ => b.Shows mode ψ := by
  unfold Tree.makeFile
  refine (makeParent hp hdir).bind fun _ => ?_
  -- while the file is written, the view is one of before in which it has come
  let φ' : View → Prop := fun v =>
    ∃ u bytes, φ u ∧ u side m = none ∧ v = u.set side m (some (.file 0 bytes))
  refine Triple.bind (Q := fun f d => f.location = b.onSide side m ∧ d.Holds f ∧ b.Shows mode φ' d)
    (Triple.mapError (createNew hp fun v hv hnone => ⟨v, #[], hv, hnone, rfl⟩) _) fun f => ?_
  refine (Triple.forM_keeps fun n _ => (Triple.draw _).bind fun bytes => Triple.change ?_).bind
    fun _ => Triple.change ?_
  · rintro t d d' ⟨hf, held, h⟩ happend
    cases happend
    refine ⟨hf, held.store _, h.storeHeld held hf ?_⟩
    rintro v ⟨u, old, hu, hnone, rfl⟩
    exact ⟨u, _, hu, hnone, View.set_set ..⟩
  · rintro t d d' ⟨hf, -, h⟩ htime
    cases htime
    rw [hf]
    refine (h.mono ?_).setTimesAt side m
    rintro v ⟨u, bytes, hu, hnone, rfl⟩
    exact hfile u bytes hu hnone

/-- A file is opened for a copy, while another one is held open. -/
theorem openCopy (hp : b.Spells p (side.name.toList :: m)) {g : OpenFile}
    (hφ : ∀ v, φ v → ψ (v.set side m (some (.file 0 #[])))) :
    Triple (fun d => d.Holds g ∧ b.Shows mode φ d)
      (Action.request fun t d => d.openOrCreate t p Tree.fileMode true : Action IoError OpenFile)
      fun f d => d.Holds g ∧ f.location = b.onSide side m ∧ d.Holds f ∧ b.Shows mode ψ d := by
  refine Triple.request fun t d f d' ⟨held, h⟩ hopen => ?_
  obtain ⟨dir, n, htarget, hf, ⟨free, hid, rfl⟩ | ⟨bytes, hfile, rfl⟩⟩ := Disk.of_openOrCreate hopen
  · obtain ⟨above, rfl, rfl, isDir, hnone, isName⟩ := h.1.of_leadsToFree hp free
    obtain rfl : f = ⟨b.onSide side above ++ [n], d.nextId⟩ := by rw [← hf, ← hid]
    exact ⟨held.addFile free.free, (b.onSide_append side above [n]).symm, Disk.holds_addFile ..,
      h.addFile isDir hnone isName fun v hv _ => hφ v hv⟩
  · obtain ⟨hloc, -⟩ := h.1.of_target_name hp htarget
    have hf' : f.location = b.onSide side m := hf.trans hloc
    have held' : d.Holds f := ⟨bytes, hf ▸ hfile⟩
    exact ⟨held.store #[], hf', held'.store #[], h.storeHeld held' hf' hφ⟩

/-- A file gets the bytes of another one. -/
theorem copyFile (ht : b.Spells target (Side.rhs.name.toList :: m))
    (hs : b.Spells source (Side.lhs.name.toList :: m)) (size : Nat)
    (hφ : ∀ v, φ v → ∃ bytes, v .lhs m = some (.file 0 bytes) ∧
      ψ (v.set .rhs m (some (.file 0 bytes)))) :
    Triple (b.Shows mode φ) (Tree.copyFile target source size) fun _ => b.Shows mode ψ := by
  unfold Tree.copyFile
  refine Triple.bind (Q := fun input d => input.location = b.onSide .lhs m ∧ d.Holds input ∧
    b.Shows mode φ d) (Triple.named (Triple.ask fun d input h hopen => ?_) _ _) fun input =>
      Triple.given (fun _ h => h.1) fun hinput => ?_
  · obtain ⟨e, bytes, hfind, hnode⟩ := Disk.of_openExisting hopen
    obtain ⟨hloc, hget⟩ := h.1.of_find hs hfind
    refine ⟨hloc, ⟨bytes, ?_⟩, h⟩
    rw [hloc, Disk.node?_of_get? hget, hnode]
  -- the copy is empty, and the source is as it was
  refine Triple.bind (Q := fun copy d => d.Holds input ∧ copy.location = b.onSide .rhs m ∧
      d.Holds copy ∧
      b.Shows mode (fun v => ∃ u, φ u ∧ v = u.set .rhs m (some (.file 0 #[]))) d)
    (Triple.named ((openCopy ht fun v hv => ⟨v, hv, rfl⟩).pre fun _ h => h.2) _ _) fun copy => ?_
  refine Triple.bind (Q := fun bytes d => copy.location = b.onSide .rhs m ∧ d.Holds copy ∧
      d.load copy = #[] ∧ b.Shows mode (fun v => ψ (v.set .rhs m (some (.file 0 bytes)))) d)
    (Triple.ask ?_) fun bytes => ?_
  · rintro d _ ⟨heldInput, hcopy, held, h, u, hu, hlook⟩ ⟨⟩
    obtain ⟨bytes, hleft, hψ⟩ := hφ u hu
    have hsource : b.look d .lhs m = some (.file 0 bytes) := by
      rw [hlook, View.set_of_side_ne (by decide)]
      exact hleft
    refine ⟨hcopy, held, load_of_look held hcopy ?_, h, ?_⟩
    · rw [hlook, View.set_self]
    · rw [load_of_look heldInput hinput hsource, hlook]
      simpa only [View.set_set] using hψ
  refine Triple.bind (Q := fun _ => b.Shows mode ψ) (Triple.change ?_) fun _ => ?_
  · rintro t d d' ⟨hcopy, held, hempty, h⟩ happend
    cases happend
    rw [Disk.append, hempty, Array.empty_append]
    exact h.storeHeld held hcopy fun v hv => hv
  · split
    · exact Triple.throw _
    · exact Triple.pure fun _ h => h

end Shows

end Base

end TwinTrees
