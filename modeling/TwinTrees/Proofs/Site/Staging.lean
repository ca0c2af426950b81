import TwinTrees.Proofs.Site.Marks
import TwinTrees.Proofs.Site.SetUp
import TwinTrees.Proofs.Site.Staged
import TwinTrees.Proofs.Verb.Names

/-!
# The verbs that stage the left side

Making, removing, linking and changing entries of the left side by local names keeps a disk `Staged`
(`Keeps.perform`). A failed command may leave anything; nothing is said about it.
-/

namespace TwinTrees.Site

open TwinTrees.Action (Triple)
open Verb (namesIn sidesIn sidedNames sidedSides linkNames)

variable {ε ε' α β : Type} {s : Site} {mode : Mode} {env : Environment} {p q : Path}

/-- If the action succeeds on a disk on which the left side is being staged, the disk stays so. -/
def Keeps (s : Site) (mode : Mode) (a : Action ε α) : Prop :=
  Triple (s.Staged mode) a fun _ => s.Staged mode

/-- The environment is that of the test. -/
structure Fits (s : Site) (env : Environment) : Prop where
  marks : ∀ side, s.Marks side [] (env.side side)
  log : ∀ path f, env.sink = .file path f → f.location = s.log

theorem fits_environment (s : Site) (workers : Nat) (start : Time) {sink : LogSink}
    (log : ∀ path f, sink = .file path f → f.location = s.log) :
    s.Fits (s.environment workers start sink) where
  marks side := by
    have places := s.places_entry side.isName
    rw [environment, Environment.side_inside]
    exact ⟨places.absolute, places.steps, List.forall_mem_nil _⟩
  log := log

theorem Fits.leads (h : s.Fits env) (side : Side) : s.LeadsTo side (env.side side) :=
  (h.marks side).leadsTo

theorem Fits.resolve (h : s.Fits env) (side : Side) {name : String} (hname : IsLocal name) :
    s.LeadsTo side (env.resolve side name) :=
  (h.leads side).join hname.relative hname.descends

theorem Fits.enters (h : s.Fits env) (side : Side) {name : String} (hname : IsLocal name)
    (hne : name.toList ≠ []) : s.Enters (env.resolve side name) :=
  (h.leads side).leads.enters_join hname.relative hname.descends
    (Path.steps_ne_nil hname.relative hne)

namespace Keeps

theorem bind {a : Action ε α} {f : α → Action ε β} (h : s.Keeps mode a)
    (hf : ∀ x, s.Keeps mode (f x)) : s.Keeps mode (a >>= f) := Triple.bind h hf

theorem pure (x : α) : s.Keeps mode (Pure.pure x : Action ε α) := Triple.pure fun _ => id

theorem throw (e : ε) : s.Keeps mode (throw e : Action ε α) := Triple.throw e

theorem ask (f : Disk → Except ε α) : s.Keeps mode (Action.ask f) :=
  Triple.ask fun _ _ h _ => h

theorem write (h : s.Fits env) (e : Event) : s.Keeps (ε := ε) mode (env.write e) :=
  Triple.write fun path f hsink _ _ _ hd => hd.writeLog (h.log path f hsink)

/-! ## Trees -/

/-- Making the directories along a path into the left side, or along a path above it. -/
theorem makeDirectories (hp : s.LeadsTo .lhs p) (habs : q.isAbsolute = p.isAbsolute)
    (hsteps : q.steps <+: p.steps) : s.Keeps mode (Tree.makeDirectories q Tree.directoryMode) := by
  have hattempt : ∀ q' ∈ q.ancestors, ∀ w : World, s.Staged mode w.disk →
      s.Staged mode ((Action.change (ε := IoError) fun t d =>
        d.makeDirectory t q' Tree.directoryMode).run w).2.disk := by
    intro q' hq' w hw
    obtain ⟨habs', hsteps'⟩ := Path.of_mem_ancestors hq'
    rw [Action.run_change]
    cases hmake : w.disk.makeDirectory (Action.time w) q' Tree.directoryMode with
    | error fault => exact hw
    | ok d =>
      obtain hleads | habove := hp.of_prefix (habs'.trans habs) (hsteps'.trans hsteps)
      · exact hw.makeDirectory hleads hmake
      · exact absurd hmake (hw.makeDirectory_above ((habs'.trans habs).trans hp.absolute) habove
          hw.absolute)
  intro w x w' hw hrun
  have hkept := Tree.makeDirectoriesAlong_keeps (I := fun w => s.Staged mode w.disk) hattempt w hw
  unfold Tree.makeDirectories at hrun
  rw [hrun] at hkept
  exact hkept

theorem makeDirectory (hp : s.LeadsTo .lhs p) : s.Keeps mode (Tree.makeDirectory p) :=
  Triple.named (makeDirectories hp rfl List.prefix_rfl) _ _

theorem makeParent (hp : s.LeadsTo .lhs p) : s.Keeps mode (Tree.makeParent p) := by
  unfold Tree.makeParent
  cases hparent : p.parent? with
  | none => exact pure ()
  | some above =>
    obtain ⟨before, st, after, hsteps, -⟩ := Path.steps_parent hparent
    refine Triple.named (makeDirectories hp (Path.isAbsolute_parent hparent) ?_) _ _
    rw [hsteps, List.append_assoc]
    exact List.prefix_append _ _

/-- The disk is staged, and the file that is held open is on the left side. -/
def StagedWith (s : Site) (mode : Mode) (f : OpenFile) (d : Disk) : Prop :=
  s.Staged mode d ∧ s.On .lhs f.location

theorem makeFile (hp : s.LeadsTo .lhs p) (size : Nat) (t : Time) :
    s.Keeps mode (Tree.makeFile p size t) := by
  unfold Tree.makeFile
  refine (makeParent hp).bind fun _ => ?_
  refine Triple.bind (Q := StagedWith s mode) (Triple.mapError (Triple.request ?_) _) fun f => ?_
  · exact fun t d f d' hd hmake => hd.createNew hp hmake
  refine (Triple.forM_keeps (P := StagedWith s mode f) fun n _ => (Triple.draw _).bind fun bytes =>
    Triple.change ?_).bind fun _ => Triple.change ?_
  · rintro t d d' ⟨hd, on⟩ happend
    cases happend
    exact ⟨hd.store on _, on⟩
  · rintro _ d d' ⟨hd, on⟩ hset
    cases hset
    exact hd.setTimesAt on t

theorem mutate (hp : s.LeadsTo .lhs p) (min max : Nat) :
    s.Keeps mode (Tree.mutate p min max) := by
  unfold Tree.mutate
  refine Triple.bind (Q := StagedWith s mode)
    (Triple.named (Triple.ask fun d f hd hopen => ⟨hd, hd.openExisting hp hopen⟩) _ _) fun f => ?_
  refine Triple.bind (Q := fun _ => StagedWith s mode f) (Triple.ask fun _ _ h _ => h) fun bytes => ?_
  refine (Triple.tryDraw _).bind fun writes => (Triple.draw _).bind fun changed => ?_
  refine Triple.bind (Q := fun _ => StagedWith s mode f) (Triple.change ?_) fun _ =>
    Triple.bind (Q := fun _ => s.Staged mode) (Triple.change ?_) fun _ => pure _
  · rintro t d d' ⟨hd, on⟩ hstore
    cases hstore
    exact ⟨hd.store on _, on⟩
  · rintro t d d' ⟨hd, on⟩ hset
    cases hset
    exact hd.setTimesAt on t

/-! ## Verbs -/

/-- An action for each sided name, if all of them are on the left side. -/
theorem forEachSided {arguments : List String} {act : Side → String → Action CommandError Unit}
    (left : ∀ side ∈ sidedSides arguments, side = .lhs)
    (h : ∀ name ∈ sidedNames arguments, name.toList ≠ [] → s.Keeps mode (act .lhs name)) :
    s.Keeps mode (Verb.forEachSided arguments act) := by
  refine Triple.forM_keeps fun argument hargument => Triple.bindConst fun sided hread => ?_
  obtain ⟨side, names⟩ := sided
  obtain rfl := left side (Verb.mem_sidedSides hargument hread)
  exact Triple.forM_keeps fun name hname => h name (Verb.mem_sidedNames hargument hread hname)
    (ne_empty_of_readSided hread hname)

theorem makeEntry (fits : s.Fits env) {r : Verb.MakeRequest} (left : r.target = .side .lhs)
    {name : String} (hname : IsLocal name) : s.Keeps mode (Verb.makeEntry env r name) := by
  have hp : s.LeadsTo .lhs (env.resolve r.target.first name) := by
    rw [left]
    exact fits.resolve .lhs hname
  unfold Verb.makeEntry
  simp only
  split
  · exact (write fits _).bind fun _ => makeDirectory hp
  · refine Keeps.bind ?_ fun size => (write fits _).bind fun _ => makeFile hp size env.start
    unfold Verb.drawSize
    split
    · exact Triple.draw _
    · exact pure _

theorem make (fits : s.Fits env) {arguments : List String}
    (h : Verb.Stages "mkfile" arguments) : s.Keeps mode (Verb.make env arguments) := by
  refine Triple.bindConst fun r hread => ?_
  have hnames : ∀ name ∈ r.names, IsLocal name := by
    have hnames := h.names
    unfold namesIn at hnames
    rw [hread] at hnames
    exact hnames
  have hleft : r.target = .side .lhs := by
    have hleft := h.left
    unfold sidesIn at hleft
    rw [hread] at hleft
    obtain ⟨min, max, directories, target, names⟩ := r
    cases target with
    | side side => rw [hleft side (List.mem_singleton.2 rfl)]
    | both => exact absurd (hleft .rhs (by simp)) nofun
  refine Keeps.bind (Triple.forM_keeps fun name hname => makeEntry fits hleft (hnames name hname))
    fun _ => ?_
  rw [if_neg (by rw [hleft]; nofun)]
  exact pure ()

theorem linkEntry (fits : s.Fits env) {pair : String} {pairs : List String} (hpair : pair ∈ pairs)
    (names : ∀ name ∈ linkNames pairs, IsLocal name) :
    s.Keeps mode (Verb.linkEntry env .lhs pair) := by
  refine Triple.bindConst fun read hread => ?_
  obtain ⟨new, old⟩ := read
  obtain ⟨hnew, hold⟩ := Verb.mem_linkNames hpair hread
  have hp := fits.resolve .lhs (names new hnew)
  refine (makeParent hp).bind fun _ => (write fits _).bind fun _ =>
    Triple.named (Triple.change fun t d d' hd hmake => ?_) _ _
  exact hd.makeLink hp (fits.resolve .lhs (names old hold)) hmake

theorem link (fits : s.Fits env) {arguments : List String}
    (h : Verb.Stages "symlink" arguments) : s.Keeps mode (Verb.link env arguments) := by
  unfold Verb.link
  split
  · exact throw _
  · exact forEachSided h.left fun pair hpair _ => linkEntry fits hpair h.names

theorem removeEntry (fits : s.Fits env) {name : String} (hname : IsLocal name)
    (hne : name.toList ≠ []) : s.Keeps mode (Verb.removeEntry env .lhs name) := by
  have hp := fits.resolve .lhs hname
  have enters := fits.enters .lhs hname hne
  unfold Verb.removeEntry
  refine Keeps.bind (Triple.named (ask _) _ _) fun there => ?_
  split
  · exact throw _
  refine (write fits _).bind fun _ => Keeps.bind (Triple.named (ask _) _ _) fun found => ?_
  refine Triple.named (Triple.change fun t d d' hd hremove => ?_) _ _
  split at hremove
  · exact hd.removeDirectory hp enters hremove
  · exact hd.removeFile hp enters hremove

theorem remove (fits : s.Fits env) {arguments : List String} (h : Verb.Stages "rm" arguments) :
    s.Keeps mode (Verb.remove env arguments) := by
  unfold Verb.remove
  split
  · exact throw _
  · exact forEachSided h.left fun name hname hne => removeEntry fits (h.names name hname) hne

theorem mutateFiles (fits : s.Fits env) {arguments : List String}
    (h : Verb.Stages "mutate" arguments) : s.Keeps mode (Verb.mutate env arguments) := by
  refine Triple.bindConst fun r hread => ?_
  have hnames := h.names
  have hleft := h.left
  unfold namesIn at hnames
  unfold sidesIn at hleft
  rw [hread] at hnames hleft
  refine forEachSided hleft fun name hname _ => ?_
  exact Keeps.bind (mutate (fits.resolve .lhs (hnames name hname)) r.min r.max) fun m =>
    write fits _

/-- A verb that stages the left side keeps the disk staged. -/
theorem verb (fits : s.Fits env) {h : Handler Verb} (hmem : h ∈ Verb.standard.handlers)
    {arguments : List String} (hstages : Verb.Stages h.name arguments) :
    s.Keeps mode (h.body env arguments) := by
  simp only [Verb.standard, List.mem_cons, List.not_mem_nil, or_false] at hmem
  obtain rfl | rfl | rfl | rfl | rfl | rfl | rfl := hmem
  · exact make fits hstages
  · exact remove fits hstages
  · exact link fits hstages
  · exact absurd hstages.stages (by decide)
  · exact absurd hstages.stages (by decide)
  · exact mutateFiles fits hstages
  · exact absurd hstages.stages (by decide)

/-- A command that stages the left side, once its arguments are expanded, keeps the disk staged. -/
theorem perform (fits : s.Fits env) {c : Script.Command Verb}
    (hmem : c.handler ∈ Verb.standard.handlers)
    (hstages : ∀ arguments, env.expandArguments c.handler.name c.arguments = .ok arguments →
      Verb.Stages c.handler.name arguments) : s.Keeps mode (env.perform c) := by
  unfold Environment.perform
  refine Triple.bindConst fun arguments hexpand => (write fits _).bind fun _ => ?_
  exact (verb fits hmem (hstages arguments hexpand)).mapError _

end Keeps

end TwinTrees.Site
