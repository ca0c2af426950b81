import TwinTrees.Proofs.Disk.Directory
import TwinTrees.Verb.Standard

/-!
# The events that actions write

An action never takes anything off the journal. `Action.Emits sink P a` says so of the action `a`: whether
or not it fails, it has added records to the journal and nothing else, all for the log `sink` and of
events that satisfy `P`. There is one rule for each way to build an action. Making, copying, changing and
looking at entries writes nothing; what a verb writes is its own (`Event.IsOwn`), so the start of a
command can be told from what the command does.
-/

namespace TwinTrees

/-- The event is one of those that a verb writes. -/
def Event.IsOwn : Event → Prop
  | started .. | command .. | passed .. | failed .. => False
  | makeDirectory .. | makeFile .. | copy .. | remove .. | link .. | mutated ..
  | argumentsIgnored .. => True

namespace Action

variable {sink : LogSink} {P : Event → Prop} {ε ε' α β γ : Type} {a : Action ε α}

/-- The action adds such records to the journal, whatever comes of it (see the module docstring). -/
def Emits (sink : LogSink) (P : Event → Prop) (a : Action ε α) : Prop :=
  ∀ w, ∃ own, (a.run w).2.journal = w.journal ++ own ∧ ∀ r ∈ own, r.sink = sink ∧ P r.event

namespace Emits

theorem of_journal (h : ∀ w, (a.run w).2.journal = w.journal) : Emits sink P a :=
  fun w => ⟨[], (h w).trans (List.append_nil _).symm, nofun⟩

theorem pure (x : α) : Emits sink P (Pure.pure x : Action ε α) := of_journal fun _ => rfl

theorem throw (e : ε) : Emits sink P (throw e : Action ε α) := of_journal fun _ => rfl

theorem ask (f : Disk → Except ε α) : Emits sink P (Action.ask f) := of_journal fun _ => rfl

theorem request (f : Time → Disk → Except ε (α × Disk)) : Emits sink P (Action.request f) := by
  refine of_journal fun w => ?_
  rw [run_request]
  split <;> rfl

theorem change (f : Time → Disk → Except ε Disk) : Emits sink P (Action.change f) := request _

theorem tryDraw (f : Source → Except ε (α × Source)) : Emits sink P (Action.tryDraw f) := by
  refine of_journal fun w => ?_
  rw [run_tryDraw]
  split <;> rfl

theorem draw (f : Source → α × Source) : Emits (ε := ε) sink P (Action.draw f) := tryDraw _

theorem bind {f : α → Action ε β} (h : Emits sink P a) (hf : ∀ x, Emits sink P (f x)) :
    Emits sink P (a >>= f) := by
  intro w
  obtain ⟨own, hown, hfor⟩ := h w
  rw [run_bind]
  cases ha : a.run w with
  | mk x v =>
    rw [ha] at hown
    cases x with
    | error e => exact ⟨own, hown, hfor⟩
    | ok x =>
      obtain ⟨more, hmore, hfor'⟩ := hf x v
      refine ⟨own ++ more, ?_, fun r hr => (List.mem_append.1 hr).elim (hfor r) (hfor' r)⟩
      rw [hmore, hown, List.append_assoc]

theorem map (h : Emits sink P a) (f : α → β) : Emits sink P (f <$> a) := by
  rw [map_eq_pure_bind]
  exact h.bind fun x => pure (f x)

theorem mapError (h : Emits sink P a) (f : ε → ε') : Emits sink P (a.mapError f) := h

theorem named {a : Action IoError α} (h : Emits sink P a) (request : String) (p : Path) :
    Emits sink P (a.named request p) := h

theorem forM {f : γ → Action ε Unit} {l : List γ} (h : ∀ x ∈ l, Emits sink P (f x)) :
    Emits sink P (l.forM f) := by
  induction l with
  | nil => exact pure ()
  | cons x l ih =>
    show Emits sink P (f x >>= fun _ => l.forM f)
    exact (h x List.mem_cons_self).bind fun _ => ih fun y hy => h y (List.mem_cons_of_mem _ hy)

theorem write {env : Environment} {e : Event} (he : P e) :
    Emits (ε := ε) env.sink P (env.write e) := by
  intro w
  unfold Environment.write
  rw [LogSink.run_write]
  exact ⟨[⟨env.sink, time w, e⟩], rfl, fun r hr => by rw [List.mem_singleton.1 hr]; exact ⟨rfl, he⟩⟩

end Emits

end Action

open TwinTrees.Action (Emits)

/-! ## What writes nothing -/

namespace Tree

variable {sink : LogSink} {P : Event → Prop}

theorem emits_makeDirectories (p : Path) (mode : Mode) : Emits sink P (makeDirectories p mode) := by
  refine .of_journal fun w => makeDirectoriesAlong_keeps (I := fun w' => w'.journal = w.journal)
    (fun q _ w' hw' => ?_) w rfl
  rw [← hw', Action.run_change]
  split <;> rfl

theorem emits_makeDirectory (p : Path) : Emits sink P (makeDirectory p) := emits_makeDirectories _ _

theorem emits_makeParent (p : Path) : Emits sink P (makeParent p) := by
  unfold makeParent
  split
  · exact emits_makeDirectory _
  · exact .pure _

theorem emits_makeFile (p : Path) (size : Nat) (time : Time) :
    Emits sink P (makeFile p size time) :=
  (emits_makeParent p).bind fun _ => ((Emits.request _).mapError _).bind fun _ =>
    (Emits.forM fun _ _ => (Emits.draw _).bind fun _ => .change _).bind fun _ => .change _

theorem emits_copyFile (target source : Path) (size : Nat) :
    Emits sink P (copyFile target source size) := by
  refine ((Emits.ask _).named _ _).bind fun _ => ((Emits.request _).named _ _).bind fun _ =>
    (Emits.ask _).bind fun bytes => (Emits.change _).bind fun _ => ?_
  split
  · exact .throw _
  · exact .pure _

theorem emits_copyEntry (target source : Path) : Emits sink P (copyEntry target source) := by
  refine ((Emits.ask _).named _ _).bind fun found => ?_
  obtain ⟨l, e⟩ := found
  cases hnode : e.node with
  | directory => simp only [hnode]; exact emits_makeDirectories _ _
  | symlink old =>
    simp only [hnode]
    exact (emits_makeParent _).bind fun _ => (Emits.change _).named _ _
  | file id bytes =>
    simp only [hnode]
    exact (emits_makeParent _).bind fun _ => emits_copyFile _ _ _

theorem emits_copyLevels {root : Path} {depth : Nat} {target source : Path}
    {copySelf : Action CommandError Unit} (h : Emits sink P copySelf) :
    Emits sink P (copyLevels root depth target source copySelf) := by
  induction depth generalizing target source copySelf with
  | zero => exact h.bind fun _ => .throw _
  | succ depth ih =>
    refine (Emits.ask _).bind fun names => h.bind fun _ => ?_
    cases names with
    | error fault => exact .throw _
    | ok names =>
      refine .forM fun x _ => ?_
      simp only
      split
      · exact ih (emits_copyEntry _ _)
      · exact emits_copyEntry _ _

theorem emits_copyTree (target source : Path) : Emits sink P (copyTree target source) := by
  refine ((Emits.ask _).mapError _).bind fun found => ?_
  obtain ⟨l, e⟩ := found
  have hself : Emits sink P (copyEntry (target.join ⟨""⟩) source) := emits_copyEntry _ _
  have hcopy : ∀ e : Entry, Emits sink P (if e.node.kind = .directory then
      copyLevels source pathLimit (target.join ⟨""⟩) source (copyEntry (target.join ⟨""⟩) source)
      else copyEntry (target.join ⟨""⟩) source) := by
    intro e
    split
    · exact emits_copyLevels hself
    · exact hself
  simp only
  split
  · exact (((Emits.ask _).mapError _).map _).bind hcopy
  · exact (Emits.pure e).bind hcopy

theorem emits_mutate (p : Path) (min max : Nat) : Emits sink P (mutate p min max) :=
  ((Emits.ask _).named _ _).bind fun _ => (Emits.ask _).bind fun _ => (Emits.tryDraw _).bind
    fun _ => (Emits.draw _).bind fun _ => (Emits.change _).bind fun _ => (Emits.change _).bind
      fun _ => .pure _

theorem emits_stampTrees (roots : List Path) (time : Time) :
    Emits sink P (stampTrees roots time) := by
  have hkind : ∀ kind root, Emits sink P (stampKind time kind root) := by
    intro kind root
    refine (Emits.ask _).bind fun visits => .forM fun x _ => ?_
    cases x with
    | error e => exact .throw _
    | ok visit =>
      simp only
      split
      · exact (Emits.change _).named _ _
      · exact .pure _
  exact (Emits.forM fun root _ => hkind .file root).bind fun _ =>
    .forM fun root _ => hkind .directory root

end Tree

/-! ## What verbs write -/

namespace Verb

variable {env : Environment}

theorem emits_forEachSided {arguments : List String} {act : Side → String → Action CommandError Unit}
    (h : ∀ side name, Emits env.sink Event.IsOwn (act side name)) :
    Emits env.sink Event.IsOwn (forEachSided arguments act) :=
  .forM fun _ _ => (Emits.ask _).bind fun sided => .forM fun name _ => h sided.1 name

theorem emits_make (arguments : List String) :
    Emits env.sink Event.IsOwn (make env arguments) := by
  refine (Emits.ask _).bind fun r => Emits.bind (.forM fun name _ => ?_) fun _ => ?_
  · unfold makeEntry
    simp only
    split
    · exact Emits.bind (.write trivial) fun _ => Tree.emits_makeDirectory _
    · refine Emits.bind ?_ fun size => Emits.bind (.write trivial) fun _ => Tree.emits_makeFile _ _ _
      unfold drawSize
      split
      · exact .draw _
      · exact .pure _
  · split
    · exact .forM fun name _ => Emits.bind (.write trivial) fun _ => Tree.emits_copyEntry _ _
    · exact .pure _

theorem emits_remove (arguments : List String) :
    Emits env.sink Event.IsOwn (remove env arguments) := by
  unfold remove
  split
  · exact .throw _
  · refine emits_forEachSided fun side name => ((Emits.ask _).named _ _).bind fun there => ?_
    split
    · exact .throw _
    · exact Emits.bind (.write trivial) fun _ => ((Emits.ask _).named _ _).bind fun found =>
        (Emits.change _).named _ _

theorem emits_link (arguments : List String) :
    Emits env.sink Event.IsOwn (link env arguments) := by
  unfold link
  split
  · exact .throw _
  · exact emits_forEachSided fun side pair => (Emits.ask _).bind fun names =>
      (Tree.emits_makeParent _).bind fun _ => Emits.bind (.write trivial) fun _ =>
        (Emits.change _).named _ _

theorem emits_stamp (verb : String) (arguments : List String) :
    Emits env.sink Event.IsOwn (stamp verb env arguments) := by
  unfold stamp
  split
  · exact Emits.bind (.write trivial) fun _ => Tree.emits_stampTrees _ _
  · exact Tree.emits_stampTrees _ _

theorem emits_mutate (arguments : List String) :
    Emits env.sink Event.IsOwn (mutate env arguments) :=
  (Emits.ask _).bind fun _ => emits_forEachSided fun _ _ => (Tree.emits_mutate _ _ _).bind fun _ =>
    .write trivial

theorem emits_copy (arguments : List String) :
    Emits env.sink Event.IsOwn (copy env arguments) := by
  unfold copy
  split
  · exact Emits.bind (.write trivial) fun _ => Tree.emits_copyTree _ _
  · refine .forM fun name _ => (Emits.ask _).bind fun _ => ((Emits.ask _).named _ _).bind fun found =>
      Emits.bind (.write trivial) fun _ => ?_
    split
    · exact Tree.emits_copyTree _ _
    · exact Tree.emits_copyEntry _ _

/-- Whatever a verb comes to, what it has written to the log is its own. -/
theorem emits_standard {handler : Handler Verb} (hmem : handler ∈ standard.handlers)
    (env : Environment) (arguments : List String) :
    Emits env.sink Event.IsOwn (handler.body env arguments) := by
  simp only [standard, List.mem_cons, List.not_mem_nil, or_false] at hmem
  obtain rfl | rfl | rfl | rfl | rfl | rfl | rfl := hmem
  · exact emits_make arguments
  · exact emits_remove arguments
  · exact emits_link arguments
  · exact emits_stamp "sync" arguments
  · exact emits_stamp "touch" arguments
  · exact emits_mutate arguments
  · exact emits_copy arguments

end Verb

end TwinTrees
