import TwinTrees.Proofs.Site.Test

/-!
# The paths that commands reach

A verb acts on entries by calls that take paths: to make, copy, link, change, remove and look at
entries. `Action.Reaches S a` says that the action `a` is put together from such calls and that all
paths given to them, and all paths that it writes to the log, are in `S`. So far as names in a script
are concerned, the paths of a command come from names that are not empty, since no name is empty that
is found in arguments which are not empty (`Verb.ne_empty_of_mem_namesIn`). A command with an empty
argument does nothing at all (`no_empty_name_reached`).
-/

namespace TwinTrees

/-! ## Names among options -/

namespace Options

variable {u : Usage} {r r' : Reader} {A : List String}

/-- All names that have been read are among these arguments. -/
structure Reader.From (A : List String) (r : Reader) : Prop where
  found : ∀ n ∈ r.found.names, n ∈ A
  pending : ∀ given, r.pending = .names given → ∀ n ∈ given, n ∈ A

namespace Reader.From

theorem settle (h : r.From A) (hr : r.settle u = .ok r') : r'.From A := by
  unfold Reader.settle at hr
  split at hr
  · cases hr
    exact h
  · cases hr
  · split at hr
    · cases hr
    · obtain ⟨-, -, hr⟩ := of_bind_eq_ok hr
      cases hr
      exact ⟨h.found, nofun⟩
  · next given hpending =>
    obtain ⟨-, -, hr⟩ := of_bind_eq_ok hr
    cases hr
    refine ⟨fun n hn => ?_, nofun⟩
    obtain hn | hn := List.mem_append.1 hn
    · exact h.found n hn
    · exact h.pending given hpending n hn

theorem bare {o : Opt} (h : r.From A) (hr : r.bare u o = .ok r') : r'.From A := by
  obtain ⟨settled, hsettle, hr⟩ := of_bind_eq_ok hr
  have hsettled := h.settle hsettle
  cases heffect : o.effect with
  | switch =>
    rw [heffect] at hr
    simp only at hr
    split at hr
    · cases hr
    · cases hr
      exact ⟨hsettled.found, hsettled.pending⟩
  | value placeholder examiner =>
    rw [heffect] at hr
    cases hr
    exact ⟨hsettled.found, nofun⟩
  | help => rw [heffect] at hr; cases hr
  | version => rw [heffect] at hr; cases hr

theorem attached {o : Opt} {placeholder value : String} {examiner : String → Option ValueFault}
    (h : r.From A) (hr : r.attached u o placeholder examiner value = .ok r') : r'.From A := by
  obtain ⟨settled, hsettle, hr⟩ := of_bind_eq_ok hr
  have hsettled := h.settle hsettle
  have hfrom : Reader.From A
      { settled with pending := .option o placeholder examiner (some value) } :=
    ⟨hsettled.found, nofun⟩
  exact hfrom.settle hr

theorem letters {text : List Char} (h : r.From A) (hr : r.letters u text = .ok r') :
    r'.From A := by
  induction text generalizing r with
  | nil => cases hr; exact h
  | cons c rest ih =>
    rw [Reader.letters.eq_def] at hr
    simp only at hr
    split at hr
    · cases hr
    · split at hr
      · exact h.bare hr
      · exact h.attached hr
      · exact h.attached hr
      · obtain ⟨next, hnext, hr⟩ := of_bind_eq_ok hr
        exact ih (h.bare hnext) hr

theorem long {text : List Char} (h : r.From A) (hr : r.long u text = .ok r') : r'.From A := by
  unfold Reader.long at hr
  simp only at hr
  split at hr
  · cases hr
  · split at hr
    · exact h.bare hr
    · exact h.attached hr
    · cases hr

theorem name {argument : String} (hmem : argument ∈ A) (h : r.From A)
    (hr : r.name u argument = .ok r') : r'.From A := by
  unfold Reader.name at hr
  split at hr
  · next given hpending =>
    cases hr
    refine ⟨h.found, fun names hnames n hn => ?_⟩
    cases hnames
    obtain hn | hn := List.mem_append.1 hn
    · exact h.pending given hpending n hn
    · exact List.mem_singleton.1 hn ▸ hmem
  · obtain ⟨settled, hsettle, hr⟩ := of_bind_eq_ok hr
    cases hr
    refine ⟨(h.settle hsettle).found, fun names hnames n hn => ?_⟩
    cases hnames
    exact List.mem_singleton.1 hn ▸ hmem

theorem read {argument : String} (hmem : argument ∈ A) (h : r.From A)
    (hr : r.read u argument = .ok r') : r'.From A := by
  unfold Reader.read at hr
  split at hr
  · exact h.name hmem hr
  · split at hr
    · cases hr
      exact ⟨h.found, h.pending⟩
    · exact h.long hr
    · exact h.letters hr
    · cases hr
      exact ⟨h.found, nofun⟩
    · exact h.name hmem hr

theorem readAll {arguments : List String} (hsub : arguments ⊆ A) (h : r.From A)
    (hr : arguments.foldlM (Reader.read u) r = .ok r') : r'.From A := by
  induction arguments generalizing r with
  | nil => cases hr; exact h
  | cons argument rest ih =>
    rw [List.foldlM_cons] at hr
    obtain ⟨next, hnext, hr⟩ := of_bind_eq_ok hr
    exact ih (fun a ha => hsub (List.mem_cons_of_mem _ ha))
      (h.read (hsub List.mem_cons_self) hnext) hr

end Reader.From

/-- The names that are found are among the arguments. -/
theorem mem_of_read {arguments : List String} {found : Found} {n : String}
    (h : Options.read u arguments = .ok found) (hn : n ∈ found.names) : n ∈ arguments := by
  have hstart : Reader.start.From arguments := ⟨nofun, nofun⟩
  obtain ⟨r, hr, h⟩ := of_bind_eq_ok h
  obtain ⟨settled, hsettle, h⟩ := of_bind_eq_ok h
  have hfrom := (hstart.readAll (List.Subset.refl _) hr).settle hsettle
  simp only at h
  split at h
  · cases h
  · cases h
    exact hfrom.found n hn

end Options

namespace Verb

theorem mem_of_makeRequest {arguments : List String} {r : MakeRequest} {n : String}
    (h : MakeRequest.read arguments = .ok r) (hn : n ∈ r.names) : n ∈ arguments := by
  obtain ⟨found, hfound, h⟩ := of_bind_eq_ok h
  have hnames : r.names = found.names := by
    simp only at h
    split at h
    · cases h
    · split at h
      · obtain ⟨-, -, h⟩ := of_bind_eq_ok h
        cases h
        rfl
      · cases h
        rfl
  rw [hnames] at hn
  cases hread : Options.read makeUsage arguments with
  | error stop => rw [hread] at hfound; cases hfound
  | ok found' =>
    rw [hread] at hfound
    cases hfound
    exact Options.mem_of_read hread hn

/-- Neither name of a link is empty. -/
theorem ne_empty_of_readLink {pair new old : String} (h : readLink pair = .ok (new, old)) :
    new ≠ "" ∧ old ≠ "" := by
  unfold readLink at h
  split at h
  · cases h
    exact ⟨fun h => by simpa using congrArg String.toList h,
      fun h => by simpa using congrArg String.toList h⟩
  · cases h

/-- No name is empty that is found in arguments which are not. -/
theorem ne_empty_of_mem_namesIn {verb name : String} {arguments : List String}
    (nonempty : ∀ argument ∈ arguments, argument ≠ "") (h : name ∈ namesIn verb arguments) :
    name ≠ "" := by
  have hsided : ∀ {files name}, name ∈ sidedNames files → name ≠ "" := by
    rintro files name hname rfl
    obtain ⟨argument, -, hname⟩ := List.mem_flatMap.1 hname
    split at hname
    · next hread => exact ne_empty_of_readSided hread hname rfl
    · cases hname
  unfold namesIn at h
  split at h
  · split at h
    · next r hread => exact nonempty name (mem_of_makeRequest hread h)
    · cases h
  · exact nonempty name h
  · exact hsided h
  · split at h
    · exact hsided h
    · cases h
  · obtain ⟨pair, -, h⟩ := List.mem_flatMap.1 h
    split at h
    · next new old hread =>
      obtain ⟨hnew, hold⟩ := ne_empty_of_readLink hread
      obtain rfl | h := List.mem_cons.1 h
      · exact hnew
      · exact List.mem_singleton.1 h ▸ hold
    · cases h
  · cases h

end Verb

/-! ## Calls with paths -/

/-- The paths that an event is about. -/
def Event.paths : Event → List Path
  | started root _ | passed root => [root]
  | makeDirectory path | makeFile path _ | remove path | mutated path .. => [path]
  | copy source target => [source, target]
  | link path target => [path, target]
  | command .. | argumentsIgnored .. | failed .. => []

/-- A call that verbs make, and the paths that are given to it. -/
inductive Verb.Call : {α : Type} → Action CommandError α → List Path → Prop
  | makeDirectory (p : Path) : Call (Tree.makeDirectory p) [p]
  | makeFile (p : Path) (size : Nat) (time : Time) : Call (Tree.makeFile p size time) [p]
  | makeParent (p : Path) : Call (Tree.makeParent p) [p]
  | makeLink (target p : Path) :
    Call ((Action.change fun t d => d.makeLink t target p).named "symlink" p) [target, p]
  | copyEntry (target source : Path) : Call (Tree.copyEntry target source) [target, source]
  | copyTree (target source : Path) : Call (Tree.copyTree target source) [target, source]
  | mutate (p : Path) (min max : Nat) : Call (Tree.mutate p min max) [p]
  | stampTrees (roots : List Path) (time : Time) : Call (Tree.stampTrees roots time) roots
  | isThere (p : Path) : Call ((Tree.isThere p).named "stat" p) [p]
  | lookAt (p : Path) : Call ((Action.ask fun d => d.lookAt p).named "stat" p) [p]
  | removeDirectory (p : Path) :
    Call ((Action.change fun t d => d.removeDirectory t p).named "rm" p) [p]
  | removeFile (p : Path) : Call ((Action.change fun t d => d.removeFile t p).named "rm" p) [p]

namespace Action

/-- The action is put together from calls that are given paths in `S` only, from events that are
about paths in `S` only, and from what has to do with no path. -/
inductive Reaches (S : Path → Prop) : {ε α : Type} → Action ε α → Prop
  | pure {ε α : Type} (x : α) : Reaches S (Pure.pure x : Action ε α)
  | throw {ε α : Type} (e : ε) : Reaches S (throw e : Action ε α)
  | answer {ε α : Type} (x : Except ε α) : Reaches S (ask fun _ => x)
  | draw {α : Type} (f : Source → α × Source) : Reaches S (draw f : Action CommandError α)
  | bind {ε α β : Type} {a : Action ε α} {f : α → Action ε β} (ha : Reaches S a)
    (hf : ∀ x, Reaches S (f x)) : Reaches S (a >>= f)
  | mapError {ε ε' α : Type} {a : Action ε α} (ha : Reaches S a) (f : ε → ε') :
    Reaches S (a.mapError f)
  | write {ε : Type} (env : Environment) {e : Event} (he : ∀ p ∈ e.paths, S p) :
    Reaches S (env.write e : Action ε Unit)
  | call {α : Type} {a : Action CommandError α} {paths : List Path} (ha : Verb.Call a paths)
    (hp : ∀ p ∈ paths, S p) : Reaches S a

namespace Reaches

variable {S : Path → Prop} {ε α : Type}

theorem one {a : Action CommandError α} {p : Path} (ha : Verb.Call a [p]) (hp : S p) :
    Reaches S a :=
  .call ha fun _ hq => List.mem_singleton.1 hq ▸ hp

theorem two {a : Action CommandError α} {p q : Path} (ha : Verb.Call a [p, q]) (hp : S p)
    (hq : S q) : Reaches S a := by
  refine .call ha fun x hx => ?_
  obtain rfl | hx := List.mem_cons.1 hx
  · exact hp
  · exact List.mem_singleton.1 hx ▸ hq

theorem writeOne {env : Environment} {e : Event} {p : Path} (he : e.paths = [p]) (hp : S p) :
    Reaches S (env.write e : Action ε Unit) :=
  write env fun _ hq => List.mem_singleton.1 (he ▸ hq) ▸ hp

theorem writeTwo {env : Environment} {e : Event} {p q : Path} (he : e.paths = [p, q]) (hp : S p)
    (hq : S q) : Reaches S (env.write e : Action ε Unit) := by
  refine write env fun x hx => ?_
  rw [he] at hx
  obtain rfl | hx := List.mem_cons.1 hx
  · exact hp
  · exact List.mem_singleton.1 hx ▸ hq

theorem forM {f : α → Action ε Unit} {l : List α} (h : ∀ x ∈ l, Reaches S (f x)) :
    Reaches S (l.forM f) := by
  induction l with
  | nil => exact .pure ()
  | cons x l ih =>
    show Reaches S (f x >>= fun _ => l.forM f)
    exact (h x List.mem_cons_self).bind fun _ => ih fun y hy => h y (List.mem_cons_of_mem _ hy)

/-- What follows an answer that is the same on every disk. -/
theorem answered {β : Type} {x : Except ε α} {f : α → Action ε β}
    (hf : ∀ y, x = .ok y → Reaches S (f y)) : Reaches S (ask (fun _ => x) >>= f) := by
  cases x with
  | ok y => exact hf y rfl
  | error e => exact .throw e

end Reaches

end Action

/-! ## The verbs -/

/-- The command is about whole sides, without any name. -/
def Verb.IsWhole (verb : String) (arguments : List String) : Prop :=
  verb = "sync" ∨ verb = "touch" ∨ verb = "clone" ∧ arguments = []

namespace Action.Reaches

open Verb (namesIn IsWhole)

variable {S : Path → Prop} {env : Environment} {arguments : List String}

theorem forEachSided {act : Side → String → Action CommandError Unit}
    (h : ∀ side, ∀ name ∈ Verb.sidedNames arguments, Reaches S (act side name)) :
    Reaches S (Verb.forEachSided arguments act) := by
  refine forM fun argument hargument => answered fun sided hread => ?_
  obtain ⟨side, names⟩ := sided
  exact forM fun name hname => h side name (Verb.mem_sidedNames hargument hread hname)

section Entry

variable {name : String} (h : ∀ side, S (env.resolve side name))
include h

theorem makeEntry (r : Verb.MakeRequest) : Reaches S (Verb.makeEntry env r name) := by
  have hpath := h r.target.first
  unfold Verb.makeEntry
  simp only
  split
  · exact bind (writeOne rfl hpath) fun _ => one (.makeDirectory _) hpath
  · refine bind ?_ fun size => bind (writeOne rfl hpath) fun _ => one (.makeFile _ _ _) hpath
    unfold Verb.drawSize
    split
    · exact draw _
    · exact pure _

theorem copyAcross : Reaches S (Verb.copyAcross env name) :=
  bind (writeTwo rfl (h .lhs) (h .rhs)) fun _ => two (.copyEntry _ _) (h .rhs) (h .lhs)

theorem copyNamed : Reaches S (Verb.copyNamed env name) := by
  unfold Verb.copyNamed
  refine answered fun _ _ => (one (.lookAt _) (h .lhs)).bind fun found => ?_
  refine bind (writeTwo rfl (h .lhs) (h .rhs)) fun _ => ?_
  split
  · exact two (.copyTree _ _) (h .rhs) (h .lhs)
  · exact two (.copyEntry _ _) (h .rhs) (h .lhs)

theorem removeEntry (side : Side) : Reaches S (Verb.removeEntry env side name) := by
  unfold Verb.removeEntry
  refine (one (.isThere _) (h side)).bind fun there => ?_
  split
  · exact throw _
  refine bind (writeOne rfl (h side)) fun _ => (one (.lookAt _) (h side)).bind fun found => ?_
  by_cases hkind : found.2.node.kind = .directory
  · simp only [hkind, if_true]
    exact one (.removeDirectory _) (h side)
  · simp only [hkind, if_false]
    exact one (.removeFile _) (h side)

theorem mutateEntry (min max : Nat) (side : Side) :
    Reaches S (Verb.mutateEntry env min max side name) :=
  (one (.mutate _ _ _) (h side)).bind fun _ => writeOne rfl (h side)

end Entry

theorem linkEntry {pair : String} (side : Side)
    (h : ∀ new old, Verb.readLink pair = .ok (new, old) →
      S (env.resolve side new) ∧ S (env.resolve side old)) :
    Reaches S (Verb.linkEntry env side pair) := by
  refine answered fun names hread => ?_
  obtain ⟨new, old⟩ := names
  obtain ⟨hnew, hold⟩ := h new old hread
  refine (one (.makeParent _) hnew).bind fun _ => bind (writeTwo rfl hnew hold) fun _ => ?_
  exact two (.makeLink _ _) hold hnew

theorem make (h : ∀ name ∈ namesIn "mkfile" arguments, ∀ side, S (env.resolve side name)) :
    Reaches S (Verb.make env arguments) := by
  refine answered fun r hread => ?_
  have hnames : ∀ name ∈ r.names, ∀ side, S (env.resolve side name) := by
    intro name hname
    refine h name ?_
    unfold namesIn
    rw [hread]
    exact hname
  refine (forM fun name hname => makeEntry (hnames name hname) r).bind fun _ => ?_
  split
  · exact forM fun name hname => copyAcross (hnames name hname)
  · exact pure ()

theorem remove (h : ∀ name ∈ namesIn "rm" arguments, ∀ side, S (env.resolve side name)) :
    Reaches S (Verb.remove env arguments) := by
  unfold Verb.remove
  split
  · exact throw _
  · exact forEachSided fun side name hname => removeEntry (h name hname) side

theorem link (h : ∀ name ∈ namesIn "symlink" arguments, ∀ side, S (env.resolve side name)) :
    Reaches S (Verb.link env arguments) := by
  unfold Verb.link
  split
  · exact throw _
  · refine forEachSided fun side pair hpair => linkEntry side fun new old hread => ?_
    obtain ⟨hnew, hold⟩ := Verb.mem_linkNames hpair hread
    exact ⟨h new hnew side, h old hold side⟩

theorem mutate (h : ∀ name ∈ namesIn "mutate" arguments, ∀ side, S (env.resolve side name)) :
    Reaches S (Verb.mutate env arguments) := by
  refine answered fun r hread => forEachSided fun side name hname => ?_
  refine mutateEntry (h name ?_) r.min r.max side
  unfold namesIn
  rw [hread]
  exact hname

theorem copy (h : ∀ name ∈ namesIn "clone" arguments, ∀ side, S (env.resolve side name))
    (whole : arguments = [] → ∀ side, S (env.side side)) :
    Reaches S (Verb.copy env arguments) := by
  unfold Verb.copy
  split
  · next hempty =>
    have hside := whole (List.isEmpty_iff.1 hempty)
    exact bind (writeTwo rfl (hside .lhs) (hside .rhs)) fun _ =>
      two (.copyTree _ _) (hside .rhs) (hside .lhs)
  · exact forM fun name hname => copyNamed (h name hname)

theorem stamp (verb : String) (whole : ∀ side, S (env.side side)) :
    Reaches S (Verb.stamp verb env arguments) := by
  have hstamp : Reaches S (Tree.stampTrees [env.lhs, env.rhs] env.start) :=
    two (.stampTrees _ _) (whole .lhs) (whole .rhs)
  unfold Verb.stamp
  split
  · exact (write env nofun).bind fun _ => hstamp
  · exact hstamp

theorem verb {handler : Handler Verb} (hmem : handler ∈ Verb.standard.handlers)
    (h : ∀ name ∈ namesIn handler.name arguments, ∀ side, S (env.resolve side name))
    (whole : IsWhole handler.name arguments → ∀ side, S (env.side side)) :
    Reaches S (handler.body env arguments) := by
  simp only [Verb.standard, List.mem_cons, List.not_mem_nil, or_false] at hmem
  obtain rfl | rfl | rfl | rfl | rfl | rfl | rfl := hmem
  · exact make h
  · exact remove h
  · exact link h
  · exact stamp "sync" (whole (.inl rfl))
  · exact stamp "touch" (whole (.inr (.inl rfl)))
  · exact mutate h
  · exact copy h fun hempty => whole (.inr (.inr ⟨rfl, hempty⟩))

end Action.Reaches

/-! ## Commands -/

namespace Environment

/-- The path is that of a name in the expanded arguments of a command, and the name is not empty; or
it is that of a side, and the command is about whole sides. -/
def Mentions (env : Environment) (c : Script.Command Verb) (p : Path) : Prop :=
  ∃ arguments, env.expandArguments c.handler.name c.arguments = .ok arguments ∧
    ((∃ side, ∃ name ∈ Verb.namesIn c.handler.name arguments,
        name ≠ "" ∧ p = env.resolve side name) ∨
      Verb.IsWhole c.handler.name arguments ∧ ∃ side, p = env.side side)

variable {env : Environment}

theorem reaches_perform {c : Script.Command Verb} (hmem : c.handler ∈ Verb.standard.handlers) :
    Action.Reaches (env.Mentions c) (env.perform c) := by
  refine .answered fun arguments hexpand => (Action.Reaches.write env nofun).bind fun _ => ?_
  have nonempty := (expandArguments_eq_ok_iff.1 hexpand).2
  refine (Action.Reaches.verb hmem (fun name hname side => ?_) fun whole side => ?_).mapError _
  · have hne := Verb.ne_empty_of_mem_namesIn nonempty hname
    exact ⟨arguments, hexpand, .inl ⟨side, name, hname, hne, rfl⟩⟩
  · exact ⟨arguments, hexpand, .inr ⟨whole, side, rfl⟩⟩

/-- The first argument that is empty is reported. -/
theorem expandArguments_of_empty {verb argument : String} {before after : List String}
    (hbefore : ∀ a ∈ before, Script.expandString env.value? a ≠ "")
    (hempty : Script.expandString env.value? argument = "") :
    env.expandArguments verb (before ++ argument :: after) =
      .error (.expansion env.name verb argument) := by
  unfold expandArguments
  induction before with
  | nil =>
    rw [List.nil_append, List.mapM_cons, expandArgument, hempty]
    rfl
  | cons a before ih =>
    obtain ⟨ha, hbefore⟩ := List.forall_mem_cons.1 hbefore
    have hargument : env.expandArgument verb a = .ok (Script.expandString env.value? a) := by
      rw [expandArgument, if_neg fun h => ha (String.isEmpty_iff.1 h)]
    rw [List.cons_append, List.mapM_cons, hargument, ih hbefore]
    rfl

end Environment

/-- The paths that the commands of a script reach come from names that are not empty, or are those of
whole sides. A command can be performed if none of its arguments is empty once it is expanded; else
the first of them is reported, the world is as it was, and the test ends with the log of that. -/
theorem no_empty_name_reached {file source : String} {commands : List (Script.Command Verb)}
    (parse : Script.parse Verb.standard file source = .ok commands) (env : Environment) :
    ∀ c ∈ commands, Action.Reaches (env.Mentions c) (env.perform c) ∧
      ((∀ a ∈ c.arguments, Script.expandString env.value? a ≠ "") →
        env.expandArguments c.handler.name c.arguments =
          .ok (c.arguments.map (Script.expandString env.value?))) ∧
      ∀ before argument after, c.arguments = before ++ argument :: after →
        (∀ a ∈ before, Script.expandString env.value? a ≠ "") →
        Script.expandString env.value? argument = "" →
        let e : RunError := .expansion env.name c.handler.name argument
        ∀ w, (env.perform c).run w = (.error e, w) ∧
          ∀ r path rest, Progress.step r path (.running env (c :: rest)) w =
            (.finished (.error e),
              ((env.write (.failed env.name e.message) : Action RunError Unit).run w).2) := by
  intro c hc
  refine ⟨env.reaches_perform (Script.handler_mem_of_parse parse c hc), fun nonempty => ?_,
    fun before argument after harguments hbefore hempty => ?_⟩
  · refine Environment.expandArguments_eq_ok_iff.2 ⟨rfl, fun a ha => ?_⟩
    obtain ⟨argument, hargument, rfl⟩ := List.mem_map.1 ha
    exact nonempty argument hargument
  · intro e w
    have hperform : (env.perform c).run w = (.error e, w) := by
      unfold Environment.perform
      rw [Action.run_bind, Action.run_ask, harguments,
        Environment.expandArguments_of_empty hbefore hempty]
    refine ⟨hperform, fun r path rest => ?_⟩
    rw [Progress.step_cons, hperform]

/-- A link to a file, and a name that vanishes because nothing has the value of its placeholder. -/
theorem vanished_name_stops_test :
    let link : Script.Command Verb := ⟨⟨"symlink", Verb.link⟩, "symlink", ["rhs=d/l@$LHS/f"], 1⟩
    let remove : Script.Command Verb := ⟨⟨"rm", Verb.remove⟩, "rm", ["lhs=f", "$GONE"], 2⟩
    let env : Environment := .inside ⟨"/run"⟩ "a.t" 1 ⟨0, 0⟩ .console
    Script.parse Verb.standard "a.t" "symlink rhs=d/l@$LHS/f\nrm lhs=f $GONE\n" =
        .ok [link, remove] ∧
      Action.Reaches (env.Mentions link) (env.perform link) ∧
      env.expandArguments "symlink" link.arguments = .ok ["rhs=d/l@/run/a.t/lhs/f"] ∧
      ∀ w, (env.perform remove).run w = (.error (.expansion "a.t" "rm" "$GONE"), w) := by
  intro link remove env
  have parse : Script.parse Verb.standard "a.t" "symlink rhs=d/l@$LHS/f\nrm lhs=f $GONE\n" =
      .ok [link, remove] := by
    rfl
  obtain ⟨hlink, hexpand, -⟩ := no_empty_name_reached parse env link List.mem_cons_self
  obtain ⟨-, -, hremove⟩ := no_empty_name_reached parse env remove
    (List.mem_cons_of_mem _ List.mem_cons_self)
  refine ⟨parse, hlink, ?_, fun w => ?_⟩
  · exact (hexpand (by decide +kernel)).trans (congrArg _ (by decide +kernel))
  · exact (hremove ["lhs=f"] "$GONE" [] rfl (by decide +kernel) (by decide +kernel) w).1

end TwinTrees
