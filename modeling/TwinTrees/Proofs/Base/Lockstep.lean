import TwinTrees.Proofs.Base.Showing
import TwinTrees.Proofs.Base.Stamping
import TwinTrees.Proofs.Verb.Names

/-!
# Verbs that keep the sides of a test the same

With both sides as its target, `mkfile` makes its entries on the left side and then copies them one
by one; so in between the right side lags behind, but only at names on the way to entries that are
still to be copied (`View.Lags`). The copy of an entry makes the directories above it as well, which
is why it leaves nothing behind on its own way. A `clone` copies every entry again and changes
nothing that shows; `rm` takes the same names from both sides, but not at the same time.
-/

namespace TwinTrees

/-! ## Views -/

namespace View

variable {u v : View} {todo rest : List Location} {t m : Location} {x : Option Node}

/-- Both sides look the same. -/
def Same (v : View) : Prop := ∀ m, v .rhs m = v .lhs m

/-- Both sides look the same but for names on the way to those in the list, at which there may be
nothing on the right side. -/
def Lags (todo : List Location) (v : View) : Prop :=
  ∀ m, v .rhs m = v .lhs m ∨ v .rhs m = none ∧ ∃ t ∈ todo, m <+: t

theorem lags_nil_iff : v.Lags [] ↔ v.Same := by
  simp [Lags, Same]

theorem Same.lags (h : v.Same) (todo : List Location) : v.Lags todo := fun m => .inl (h m)

namespace Lags

theorem free (h : v.Lags todo) (free : v .lhs m = none) : v .rhs m = none := by
  rcases h m with hsame | ⟨hnone, -⟩
  · rw [hsame, free]
  · exact hnone

/-- Something new on the left side is still to be copied. -/
theorem setLeft (h : v.Lags todo) (ht : t ∈ todo) (hm : m <+: t) (free : v .lhs m = none) :
    (v.set .lhs m x).Lags todo := by
  intro l
  rw [set_of_side_ne (by decide)]
  by_cases hl : l = m
  · subst hl
    exact .inr ⟨h.free free, t, ht, hm⟩
  · rw [set_of_ne hl]
    exact h l

/-- A copy on the right side. -/
theorem setRight (h : v.Lags todo) (copy : v .lhs m = x) : (v.set .rhs m x).Lags todo := by
  intro l
  rw [set_of_side_ne (show Side.lhs ≠ .rhs by decide)]
  by_cases hl : l = m
  · subst hl
    exact .inl (set_self.trans copy.symm)
  · rw [set_of_ne hl]
    exact h l

/-- Where everything on the way is there, nothing is left to copy. -/
theorem done (h : v.Lags (t :: rest)) (there : ∀ m, m <+: t → v .rhs m ≠ none) : v.Lags rest := by
  intro m
  rcases h m with hsame | ⟨hnone, t', ht', hm⟩
  · exact .inl hsame
  · rcases List.mem_cons.1 ht' with rfl | ht'
    · exact absurd hnone (there m hm)
    · exact .inr ⟨hnone, t', ht', hm⟩

end Lags

/-- The view without what is at some names of each side. -/
def without (v : View) (gone : Side → List Location) : View :=
  fun side m => if m ∈ gone side then none else v side m

theorem without_without (gone gone' : Side → List Location) :
    (v.without gone).without gone' = v.without fun side => gone side ++ gone' side := by
  funext side m
  simp only [without, List.mem_append]
  by_cases h : m ∈ gone side <;> by_cases h' : m ∈ gone' side <;> simp [h, h']

theorem without_nil : (v.without fun _ => []) = v := by
  funext side m
  simp [without]

theorem Same.without (h : v.Same) {gone : Side → List Location}
    (hgone : ∀ m, m ∈ gone .lhs ↔ m ∈ gone .rhs) : (v.without gone).Same := by
  intro m
  simp only [View.without, hgone, h m]

end View

namespace Base

open TwinTrees.Action (Triple)
open Verb (namesIn namesOn)

variable {b : Base} {mode : Mode} {d : Disk} {side : Side} {m t : Location} {rest : List Location}
  {p target source : Path} {φ ψ : View → Prop} {env : Environment} {name : String}
  {names arguments : List String}

/-- The names that a name spells. -/
def spelled (name : String) : Location := stepNames (Path.mk name).steps

theorem Fits.spells_name (fits : b.Fits env) (side : Side) (hname : IsLocal name) :
    b.Spells (env.resolve side name) (side.name.toList :: spelled name) :=
  fits.resolve side hname.relative hname.descends

/-- The entries of the kinds that are done were modified at the time. -/
def Timed (b : Base) (time : Time) (done : Side → Kind → Prop) (d : Disk) : Prop :=
  ∀ side kind m, done side kind → d.kind? (b.onSide side m) = some kind →
    d.HasTime time (b.onSide side m)

namespace Shows

/-! ## Copies -/

/-- What was copied is there, and so is all that is above it. -/
theorem done (h : b.Shows mode (View.Lags (t :: rest)) d) (there : d.node? (b.onSide .rhs t) ≠ none) :
    b.Shows mode (View.Lags rest) d := by
  refine ⟨h.1, h.2.done fun m hm hnone => ?_⟩
  rw [look_eq_none_iff] at hnone
  by_cases heq : m = t
  · exact there (heq ▸ hnone)
  · rw [show d.node? _ = _ from h.1.isDir_above there hm heq] at hnone
    cases hnone

/-- The copy of an entry leaves nothing to copy on the way to it. -/
theorem copyEntry (ht : b.Spells target (Side.rhs.name.toList :: t))
    (hs : b.Spells source (Side.lhs.name.toList :: t)) :
    Triple (b.Shows mode (View.Lags (t :: rest))) (Tree.copyEntry target source)
      fun _ => b.Shows mode (View.Lags rest) := by
  unfold Tree.copyEntry
  refine Triple.bind (Q := fun x d => d.get? (b.onSide .lhs t) = some x.2 ∧
      b.Shows mode (View.Lags (t :: rest)) d)
    (Triple.named (Triple.ask fun d x h hlook => ⟨(h.1.of_find hs hlook).2, h⟩) _ _) fun x => ?_
  have habove : ∀ d, d.get? (b.onSide .lhs t) = some x.2 ∧
      b.Shows mode (View.Lags (t :: rest)) d → ∀ l, l <+: t → l ≠ t →
        b.look d .lhs l = some .directory := by
    rintro d ⟨hget, h⟩ l hl hne
    refine look_eq_directory_iff.2 (h.1.isDir_above ?_ hl hne)
    rw [Disk.node?_of_get? hget]
    exact Option.some_ne_none _
  cases hnode : x.2.node with
  | directory =>
    simp only [hnode]
    refine Triple.given (φ := x.2.mode = mode) (fun d h => ?_) fun hmode => ?_
    · rw [h.2.1.modes .lhs t x.2 h.1, hnode]
      rfl
    -- on the left side there are directories all the way, and their copies show the same
    refine (Triple.named (makeDirectories
      (φ := fun v => v.Lags (t :: rest) ∧ ∀ l, l <+: t → v .lhs l = some .directory) ht (.inr hmode)
      fun v l hv hl _ => ⟨hv.1.setRight (hv.2 l hl), fun l' hl' => ?_⟩) _ _).mono
        (fun d h => ⟨h.2.1, h.2.2, fun l hl => ?_⟩) fun _ d h => ?_
    · rw [View.set_of_side_ne (by decide)]
      exact hv.2 l' hl'
    · by_cases heq : l = t
      · rw [heq, look_of_node? (Disk.node?_of_get? h.1), hnode]
        rfl
      · exact habove d h l hl heq
    · refine done (h.1.mono fun v hv => hv.1) ?_
      rw [show d.node? _ = _ from h.2]
      exact Option.some_ne_none _
  | symlink old =>
    simp only [hnode]
    refine Triple.given (φ := False) (fun d h => ?_) False.elim
    exact h.2.1.noLink .lhs t old (by rw [Disk.node?_of_get? h.1, hnode])
  | file id bytes =>
    simp only [hnode]
    refine Triple.pre (P := b.Shows mode fun v => v.Lags (t :: rest) ∧
      (∀ l, l <+: t → l ≠ t → v .lhs l = some .directory) ∧ v .lhs t = some (.file 0 bytes)) ?_
        fun d h => ⟨h.2.1, h.2.2, habove d h, ?_⟩
    · refine (makeParent ht fun v l hv hl hne _ => ?_).bind fun _ => ?_
      · simp only [View.set_of_side_ne (show Side.lhs ≠ Side.rhs by decide)]
        exact ⟨hv.1.setRight (hv.2.1 l hl hne), hv.2⟩
      · refine (copyFile (ψ := fun v => v.Lags (t :: rest) ∧ v .rhs t ≠ none) ht hs _ fun v hv =>
          ⟨bytes, hv.2.2, hv.1.setRight hv.2.2, ?_⟩).post fun _ d h => ?_
        · rw [View.set_self]
          exact Option.some_ne_none _
        · exact done (h.mono fun v hv => hv.1) fun hnone => h.2.2 (look_eq_none_iff.2 hnone)
    · rw [look_of_node? (Disk.node?_of_get? h.1), hnode]
      rfl

theorem copyEntry_same (ht : b.Spells target (Side.rhs.name.toList :: t))
    (hs : b.Spells source (Side.lhs.name.toList :: t)) :
    Triple (b.Shows mode View.Same) (Tree.copyEntry target source)
      fun _ => b.Shows mode View.Same := by
  have hcopy : Triple (b.Shows mode (View.Lags [t])) (Tree.copyEntry target source)
      fun _ => b.Shows mode (View.Lags []) := copyEntry ht hs
  exact hcopy.mono (fun _ h => h.mono fun _ hv => hv.lags _)
    fun _ _ h => h.mono fun _ hv => View.lags_nil_iff.1 hv

/-- A tree is copied to where it is copied already. -/
theorem copyLevels (root : Path) (depth : Nat) {copySelf : Action CommandError Unit}
    (ht : b.Spells target (Side.rhs.name.toList :: m))
    (hs : b.Spells source (Side.lhs.name.toList :: m))
    (hself : Triple (b.Shows mode View.Same) copySelf fun _ => b.Shows mode View.Same) :
    Triple (b.Shows mode View.Same) (Tree.copyLevels root depth target source copySelf)
      fun _ => b.Shows mode View.Same := by
  induction depth generalizing m target source copySelf with
  | zero => exact hself.bind fun _ => Triple.throw _
  | succ depth ih =>
    rw [Tree.copyLevels]
    refine Triple.bind (Q := fun found d => (∀ names, found = .ok names →
        ∀ x ∈ names, IsName x.1) ∧ b.Shows mode View.Same d)
      (Triple.ask fun d found h hlist => ⟨?_, h⟩) fun found =>
        Triple.given (fun _ h => h.1) fun hnames => ?_
    · cases hlist
      intro names hlist x hx
      exact h.1.tree.isName_of_list hlist hx
    refine (hself.pre fun _ h => h.2).bind fun _ => ?_
    cases found with
    | error fault => exact Triple.throw _
    | ok names =>
      refine Triple.forM_keeps fun x hx => ?_
      obtain ⟨n, kind⟩ := x
      have isName : IsName n := hnames names rfl _ ((List.mergeSort_perm ..).mem_iff.1 hx)
      have hcopy : Triple (b.Shows mode View.Same)
          (Tree.copyEntry (target.join ⟨String.ofList n⟩) (source.join ⟨String.ofList n⟩))
          fun _ => b.Shows mode View.Same := copyEntry_same (ht.inside isName) (hs.inside isName)
      simp only
      split
      · exact ih (ht.inside isName) (hs.inside isName) hcopy
      · exact hcopy

theorem copyTree (ht : b.Spells target (Side.rhs.name.toList :: m))
    (hs : b.Spells source (Side.lhs.name.toList :: m)) :
    Triple (b.Shows mode View.Same) (Tree.copyTree target source)
      fun _ => b.Shows mode View.Same := by
  have hself : Triple (b.Shows mode View.Same) (Tree.copyEntry (target.join ⟨""⟩) source)
      fun _ => b.Shows mode View.Same := copyEntry_same ht.withSlash hs
  have hask : ∀ {α : Type} {f : Disk → Except IoError α} (g : IoError → CommandError),
      Triple (b.Shows mode View.Same) ((Action.ask f).mapError g)
        fun _ => b.Shows mode View.Same :=
    fun g => Triple.mapError (Triple.ask fun _ _ h _ => h) g
  have hcopy : ∀ e : Entry, Triple (b.Shows mode View.Same)
      (if e.node.kind = .directory then
        Tree.copyLevels source pathLimit (target.join ⟨""⟩) source
          (Tree.copyEntry (target.join ⟨""⟩) source)
        else Tree.copyEntry (target.join ⟨""⟩) source) fun _ => b.Shows mode View.Same := by
    intro e
    split
    · exact copyLevels source pathLimit ht.withSlash hs hself
    · exact hself
  unfold Tree.copyTree
  refine (hask _).bind fun x => ?_
  simp only
  split
  · exact ((hask _).map (R := fun _ => b.Shows mode View.Same) fun _ _ h => h).bind hcopy
  · exact (Triple.pure (Q := fun _ => b.Shows mode View.Same) fun _ h => h).bind hcopy

/-! ## Removals -/

/-- What is removed had nothing in it, and is not a side. -/
theorem of_removed (h : b.Shows mode φ d) (hp : b.Spells p (side.name.toList :: m))
    (hm : p.LastIsName → m ≠ []) {dir : Location} {n : Name} {slash : Bool} {t : Time}
    (htarget : d.target .keep p = .ok (.name dir n slash))
    (leaf : ∀ k, d.node? (dir ++ [n] ++ [k]) = none)
    (hφ : ∀ v, φ v → ψ (v.set side m none)) : b.Shows mode ψ (d.removeEntry t dir n) := by
  obtain ⟨hloc, hnil | ⟨above, rfl, rfl, -⟩⟩ := h.1.of_target_name hp htarget
  · exact absurd hnil (hm (Path.lastIsName_of_target htarget))
  · exact h.removeEntry (hloc ▸ leaf) hφ

theorem removeFile (h : b.Shows mode φ d) (hp : b.Spells p (side.name.toList :: m))
    (hm : p.LastIsName → m ≠ []) {d' : Disk} {t : Time} (hremove : d.removeFile t p = .ok d')
    (hφ : ∀ v, φ v → ψ (v.set side m none)) : b.Shows mode ψ d' := by
  obtain ⟨dir, n, slash, htarget, noDir, rfl⟩ := Disk.of_removeFile hremove
  refine h.of_removed hp hm htarget (fun k => ?_) hφ
  exact h.1.tree.node?_eq_none_of_prefix (List.prefix_append _ _) (by simp) noDir

theorem removeDirectory (h : b.Shows mode φ d) (hp : b.Spells p (side.name.toList :: m))
    (hm : p.LastIsName → m ≠ []) {d' : Disk} {t : Time} (hremove : d.removeDirectory t p = .ok d')
    (hφ : ∀ v, φ v → ψ (v.set side m none)) : b.Shows mode ψ d' := by
  obtain ⟨dir, n, slash, htarget, hnames, rfl⟩ := Disk.of_removeDirectory hremove
  exact h.of_removed hp hm htarget (Disk.names_eq_nil_iff.1 hnames) hφ

/-! ## Times -/

/-- The entries of a kind on a side are given the time. -/
theorem stampKind (hp : b.Spells p [side.name.toList]) {time : Time} {kind : Kind}
    (hkind : kind ≠ .symlink) {done : Side → Kind → Prop} :
    Triple (fun d => b.Shows mode φ d ∧ b.Timed time done d) (Tree.stampKind time kind p)
      fun _ d => b.Shows mode φ d ∧
        b.Timed time (fun s k => done s k ∨ s = side ∧ k = kind) d := by
  intro w x w' ⟨hw, htimed⟩ hrun
  have timing : b.Timing time w.disk [side.name.toList] fun d =>
      b.Shows mode (fun v => φ v ∧ v = b.look w.disk) d ∧ b.Timed time done d := by
    constructor
    · exact fun d h => h.1.1.stands
    · rintro d ⟨⟨-, -, hlook⟩, -⟩ _ ⟨m, rfl⟩
      exact kind?_eq_of_look (congrFun (congrFun hlook side) m)
    · rintro d _ ⟨h, hdone⟩ ⟨m, rfl⟩
      refine ⟨h.setTimesAt side m, fun s k l hs hk => ?_⟩
      rw [Disk.kind?, Disk.node?_setTimesAt] at hk
      exact (hdone s k l hs hk).setTimesAt _
  obtain ⟨⟨⟨plain, hφ, hlook⟩, hdone⟩, hall⟩ := Base.stampKind timing hp (List.cons_ne_nil _ _)
    (hw.1.sides side) hkind w x w' ⟨⟨hw.1, hw.2, rfl⟩, htimed⟩ hrun
  refine ⟨⟨plain, hφ⟩, fun s k m hs hk => ?_⟩
  rcases hs with hs | ⟨rfl, rfl⟩
  · exact hdone s k m hs hk
  · refine hall _ (List.prefix_append _ m) ?_
    rw [← hk]
    exact (kind?_eq_of_look (congrFun (congrFun hlook s) m)).symm

end Shows

/-! ## Verbs -/

namespace Fits

open Shows (write makeDirectories makeFile)

variable (fits : b.Fits env) (logs : b.Logs env)
include fits logs

/-- An entry is made on the left side that is still to be copied. -/
theorem makeEntry {r : Verb.MakeRequest} (both : r.target = .both) (hname : IsLocal name)
    {todo : List Location} (ht : spelled name ∈ todo) :
    Triple (b.Shows mode (View.Lags todo)) (Verb.makeEntry env r name)
      fun _ => b.Shows mode (View.Lags todo) := by
  have hp : b.Spells (env.resolve r.target.first name) (Side.lhs.name.toList :: spelled name) := by
    rw [both]
    exact fits.spells_name .lhs hname
  unfold Verb.makeEntry
  simp only
  split
  · exact (write logs _).bind fun _ => (Triple.named (makeDirectories hp (.inl rfl)
      fun v l hv hl hnone => hv.setLeft ht hl hnone) _ _).post fun _ _ h => h.1
  · have hsize : Triple (b.Shows mode (View.Lags todo)) (Verb.drawSize r.min r.max)
        fun _ => b.Shows mode (View.Lags todo) := by
      unfold Verb.drawSize
      split
      · exact Triple.draw _
      · exact Triple.pure fun _ h => h
    refine hsize.bind fun size => (write logs _).bind fun _ => ?_
    exact makeFile hp size env.start (fun v l hv hl _ hnone => hv.setLeft ht hl hnone)
      fun v bytes hv hnone => hv.setLeft ht List.prefix_rfl hnone

theorem copyAcross (hname : IsLocal name) :
    Triple (b.Shows mode (View.Lags (spelled name :: rest))) (Verb.copyAcross env name)
      fun _ => b.Shows mode (View.Lags rest) :=
  (write logs _).bind fun _ =>
    Shows.copyEntry (fits.spells_name .rhs hname) (fits.spells_name .lhs hname)

theorem make (pairs : Verb.Pairs "mkfile" arguments) :
    Triple (b.Shows mode View.Same) (Verb.make env arguments) fun _ => b.Shows mode View.Same := by
  refine Triple.bindConst fun r hread => ?_
  have both : r.target = .both := pairs.both rfl r (by rw [hread]; rfl)
  have hnames : ∀ name ∈ r.names, IsLocal name := by
    have hnames := pairs.names
    unfold namesIn at hnames
    rw [hread] at hnames
    exact hnames
  have hmake : Triple (b.Shows mode (View.Lags (r.names.map spelled)))
      (r.names.forM (Verb.makeEntry env r))
      fun _ => b.Shows mode (View.Lags (r.names.map spelled)) :=
    Triple.forM_keeps fun name hname =>
      makeEntry fits logs both (hnames name hname) (List.mem_map_of_mem hname)
  have hcopy : Triple (b.Shows mode (View.Lags (r.names.map spelled)))
      (r.names.forM (Verb.copyAcross env)) fun _ => b.Shows mode (View.Lags []) :=
    Triple.forM (I := fun rest => b.Shows mode (View.Lags (rest.map spelled)))
      fun name rest hrest =>
        copyAcross fits logs (hnames name (hrest.subset List.mem_cons_self))
  refine Triple.bind (hmake.pre fun _ h => h.mono fun _ hv => hv.lags _) fun _ => ?_
  rw [if_pos both]
  exact hcopy.post fun _ _ h => h.mono fun _ hv => View.lags_nil_iff.1 hv

theorem copy : Triple (b.Shows mode View.Same) (Verb.copy env []) fun _ => b.Shows mode View.Same :=
  (write logs _).bind fun _ => Shows.copyTree (fits.spells .rhs) (fits.spells .lhs)

/-- A removed entry is no longer there. -/
theorem removeEntry (hname : IsLocal name) (hne : name.toList ≠ [])
    (hφ : ∀ v, φ v → ψ (v.without fun other => if side = other then [spelled name] else [])) :
    Triple (b.Shows mode φ) (Verb.removeEntry env side name) fun _ => b.Shows mode ψ := by
  have hp := fits.spells_name side hname
  have hm : (env.resolve side name).LastIsName → spelled name ≠ [] := by
    rintro ⟨n, hn⟩ hnil
    rw [Environment.resolve, Path.steps_join hname.relative,
      List.getLast?_append_of_ne_nil _ (Path.steps_ne_nil hname.relative hne)] at hn
    have hmem : n ∈ spelled name :=
      List.mem_filterMap.2 ⟨_, List.mem_of_getLast? hn, rfl⟩
    rw [hnil] at hmem
    cases hmem
  have hset : ∀ v, φ v → ψ (v.set side (spelled name) none) := by
    intro v hv
    have heq : v.set side (spelled name) none =
        v.without fun other => if side = other then [spelled name] else [] := by
      funext other l
      by_cases hside : side = other
      · subst hside
        simp [View.set, View.without]
      · simp [View.set, View.without, hside, Ne.symm hside]
    exact heq ▸ hφ v hv
  have hask : ∀ {α : Type} {f : Disk → Except IoError α},
      Triple (b.Shows mode φ) ((Action.ask f).named "stat" (env.resolve side name))
        fun _ => b.Shows mode φ :=
    Triple.named (Triple.ask fun _ _ h _ => h) _ _
  unfold Verb.removeEntry
  refine hask.bind fun there => ?_
  split
  · exact Triple.throw _
  refine (write logs _).bind fun _ => hask.bind fun found => ?_
  refine Triple.named (Triple.change fun t d d' h hremove => ?_) _ _
  split at hremove
  · exact h.removeDirectory hp hm hremove hset
  · exact h.removeFile hp hm hremove hset

/-- The names in the list are removed from a side. -/
theorem removeNames (hnames : ∀ name ∈ names, IsLocal name ∧ name.toList ≠ [])
    (hφ : ∀ v, φ v → ψ (v.without fun other => if side = other then names.map spelled else [])) :
    Triple (b.Shows mode φ) (names.forM (Verb.removeEntry env side)) fun _ => b.Shows mode ψ := by
  induction names generalizing φ with
  | nil =>
    refine Triple.pure fun d h => h.mono fun v hv => ?_
    simpa [View.without_nil] using hφ v hv
  | cons name names ih =>
    obtain ⟨hname, hne⟩ := hnames name List.mem_cons_self
    refine Triple.bind (removeEntry (ψ := fun v => ∃ u, φ u ∧
      v = u.without fun other => if side = other then [spelled name] else []) fits logs hname hne
        fun v hv => ⟨v, hv, rfl⟩) fun _ =>
          ih (fun name' hname' => hnames name' (List.mem_cons_of_mem _ hname')) ?_
    rintro _ ⟨u, hu, rfl⟩
    have hboth : (fun other => (if side = other then [spelled name] else []) ++
        if side = other then names.map spelled else []) =
        fun other => if side = other then (name :: names).map spelled else [] := by
      funext other
      split <;> rfl
    rw [View.without_without, hboth]
    exact hφ u hu

/-- What the arguments name is removed from both sides. -/
theorem forEachSided (hnames : ∀ name ∈ Verb.sidedNames arguments, IsLocal name)
    (hφ : ∀ v, φ v → ψ (v.without fun side => (namesOn side arguments).map spelled)) :
    Triple (b.Shows mode φ) (Verb.forEachSided arguments (Verb.removeEntry env))
      fun _ => b.Shows mode ψ := by
  unfold Verb.forEachSided
  induction arguments generalizing φ with
  | nil =>
    refine Triple.pure fun d h => h.mono fun v hv => ?_
    simpa [namesOn, View.without_nil] using hφ v hv
  | cons argument arguments ih =>
    refine Triple.bind (Q := fun _ => b.Shows mode fun v => ∃ u, φ u ∧
        u.without (fun side => (namesOn side (argument :: arguments)).map spelled) =
          v.without fun side => (namesOn side arguments).map spelled) ?_ fun _ => ?_
    · refine Triple.bindConst fun sided hread => ?_
      obtain ⟨side, names⟩ := sided
      refine removeNames fits logs (fun name hname => ?_) fun u hu => ⟨u, hu, ?_⟩
      · exact ⟨hnames name (Verb.mem_sidedNames List.mem_cons_self hread hname),
          ne_empty_of_readSided hread hname⟩
      · rw [View.without_without]
        congr 1
        funext other
        rw [Verb.namesOn_cons hread, List.map_append]
        congr 1
        split <;> rfl
    · refine ih (fun name hname => hnames name ?_) ?_
      · obtain ⟨argument', hmem, hname⟩ := List.mem_flatMap.1 hname
        exact List.mem_flatMap.2 ⟨argument', List.mem_cons_of_mem _ hmem, hname⟩
      · rintro v ⟨u, hu, heq⟩
        exact heq ▸ hφ u hu

theorem remove (pairs : Verb.Pairs "rm" arguments) :
    Triple (b.Shows mode View.Same) (Verb.remove env arguments)
      fun _ => b.Shows mode View.Same := by
  unfold Verb.remove
  split
  · exact Triple.throw _
  · refine forEachSided fits logs pairs.names fun v hv => hv.without fun m => ?_
    simp only [List.mem_map, pairs.alike rfl]

/-- Both sides are given the start time of the test. -/
theorem stamp (verb : String) (arguments : List String) :
    Triple (b.Shows mode φ) (Verb.stamp verb env arguments)
      fun _ d => b.Shows mode φ d ∧ ∀ side m, d.HasTime env.start (b.onSide side m) := by
  have hpass : ∀ kind ≠ Kind.symlink, ∀ {done : Side → Kind → Prop},
      Triple (fun d => b.Shows mode φ d ∧ b.Timed env.start done d)
        ([env.lhs, env.rhs].forM (Tree.stampKind env.start kind))
        fun _ d => b.Shows mode φ d ∧ b.Timed env.start (fun s k => done s k ∨ k = kind) d := by
    intro kind hkind done
    refine (Shows.stampKind (fits.spells .lhs) hkind).bind fun _ =>
      (Shows.stampKind (fits.spells .rhs) hkind).bind fun _ => Triple.pure fun d h => ⟨h.1, ?_⟩
    intro s k m hs
    refine h.2 s k m ?_
    rcases hs with hs | rfl
    · exact .inl (.inl hs)
    · cases s
      · exact .inl (.inr ⟨rfl, rfl⟩)
      · exact .inr ⟨rfl, rfl⟩
  have hstamps : Triple (b.Shows mode φ) (Tree.stampTrees [env.lhs, env.rhs] env.start)
      fun _ d => b.Shows mode φ d ∧ ∀ side m, d.HasTime env.start (b.onSide side m) := by
    refine ((hpass .file (by decide)).bind fun _ => hpass .directory (by decide)).mono
      (P := fun d => b.Shows mode φ d ∧ b.Timed env.start (fun _ _ => False) d)
      (fun d h => ⟨h, fun _ _ _ hs => hs.elim⟩) fun _ d h => ⟨h.1, fun side m e he => ?_⟩
    refine h.2 side e.node.kind m ?_ (Disk.kind?_of_get? he) e he
    cases hkind : e.node.kind with
    | directory => exact .inr rfl
    | file => exact .inl (.inr rfl)
    | symlink =>
      obtain ⟨old, hold⟩ := Disk.kind?_eq_symlink_iff.1
        ((Disk.kind?_of_get? he).trans (congrArg some hkind))
      exact absurd hold (h.1.1.noLink side m old)
  unfold Verb.stamp
  split
  · exact (write logs _).bind fun _ => hstamps
  · exact hstamps

/-- A verb that treats both sides alike keeps them the same. -/
theorem verb {h : Handler Verb} (hmem : h ∈ Verb.standard.handlers)
    (pairs : Verb.Pairs h.name arguments) :
    Triple (b.Shows mode View.Same) (h.body env arguments) fun _ d =>
      b.Shows mode View.Same d ∧
        (h.name ∈ ["sync", "touch"] → ∀ side m, d.HasTime env.start (b.onSide side m)) := by
  simp only [Verb.standard, List.mem_cons, List.not_mem_nil, or_false] at hmem
  rcases hmem with rfl | rfl | rfl | rfl | rfl | rfl | rfl
  · exact (make fits logs pairs).post fun _ _ h => ⟨h, fun hname => absurd hname (by decide)⟩
  · exact (remove fits logs pairs).post fun _ _ h => ⟨h, fun hname => absurd hname (by decide)⟩
  · exact absurd pairs.pairs (by decide)
  · exact (stamp fits logs "sync" arguments).post fun _ _ h => ⟨h.1, fun _ => h.2⟩
  · exact (stamp fits logs "touch" arguments).post fun _ _ h => ⟨h.1, fun _ => h.2⟩
  · exact absurd pairs.pairs (by decide)
  · obtain rfl := pairs.whole rfl
    exact (copy fits logs).post fun _ _ h => ⟨h, fun hname => absurd hname (by decide)⟩

/-- So does a command, once its arguments are expanded. -/
theorem perform {c : Script.Command Verb} (hmem : c.handler ∈ Verb.standard.handlers)
    (pairs : ∀ arguments, env.expandArguments c.handler.name c.arguments = .ok arguments →
      Verb.Pairs c.handler.name arguments) :
    Triple (b.Shows mode View.Same) (env.perform c) fun _ d =>
      b.Shows mode View.Same d ∧
        (c.handler.name ∈ ["sync", "touch"] → ∀ side m, d.HasTime env.start (b.onSide side m)) := by
  unfold Environment.perform
  refine Triple.bindConst fun arguments hexpand => (write logs _).bind fun _ => ?_
  exact (verb fits logs hmem (pairs arguments hexpand)).mapError _

end Fits

end Base

end TwinTrees
