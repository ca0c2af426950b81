import TwinTrees.Proofs.Emission
import TwinTrees.Proofs.Site.Beside
import TwinTrees.Proofs.Verb.Reach

/-!
# Commands one after the other

The commands of a test are performed in order (`Environment.execute`), up to the first one that fails
in the state that those before it have left. It fails if one of its arguments is empty once it is
expanded, and then it has done nothing; or its verb fails, and what the verb did stays done
(`Environment.Fails`). No command after it has any part in what comes of the test.

The log tells which commands were started: `Environment.Trace` is the form of what they write to it,
each of them first its own record, with its line, and then what the verb writes.
-/

namespace TwinTrees

/-- The verb and the line of a command that was started. -/
def Event.started? : Event → Option (String × Nat)
  | command verb _ line => some (verb, line)
  | _ => none

theorem Event.IsOwn.started? {e : Event} (h : e.IsOwn) : e.started? = none := by
  cases e with
  | command => exact h.elim
  | _ => rfl

namespace Environment

variable {env : Environment} {c : Script.Command Verb} {commands done rest : List (Script.Command Verb)}
  {w v u : World} {arguments : List String} {x : Except CommandError Unit} {e : RunError}
  {records own : List Record}

/-- The commands of a test in order. -/
def execute (env : Environment) (commands : List (Script.Command Verb)) : Action RunError Unit :=
  commands.forM env.perform

/-- The arguments of the command can be expanded, it is started in the world `w`, and its verb comes to
`x` and leaves the world `v`. -/
def Starts (env : Environment) (c : Script.Command Verb) (w : World) (x : Except CommandError Unit)
    (v : World) : Prop :=
  ∃ arguments, env.expandArguments c.handler.name c.arguments = .ok arguments ∧
    (c.handler.body env arguments).run
      ((env.write (.command c.verb arguments c.line) : Action RunError Unit).run w).2 = (x, v)

/-- The commands are performed one after the other, and none fails. -/
inductive Performed (env : Environment) : World → List (Script.Command Verb) → World → Prop
  | nil {w : World} : Performed env w [] w
  | cons {w v u : World} {c : Script.Command Verb} {rest : List (Script.Command Verb)}
    (start : env.Starts c w (.ok ()) v) (onward : Performed env v rest u) :
    Performed env w (c :: rest) u

/-- The command fails in the world `w`: an argument is empty once it is expanded, the first such one is
named, and nothing has changed; or the verb fails. -/
inductive Fails (env : Environment) (c : Script.Command Verb) (w : World) : RunError → World → Prop
  | expansion {before after : List String} {argument : String}
    (arguments : c.arguments = before ++ argument :: after)
    (first : ∀ a ∈ before, Script.expandString env.value? a ≠ "")
    (empty : Script.expandString env.value? argument = "") :
    Fails env c w (.expansion env.name c.handler.name argument) w
  | command {fault : CommandError} {v : World} (start : env.Starts c w (.error fault) v) :
    Fails env c w (.command env.name c.handler.name fault) v

/-- What the commands write to the log when they are started one after the other. -/
inductive Trace (env : Environment) : List (Script.Command Verb) → List Record → Prop
  | nil : Trace env [] []
  | cons {c : Script.Command Verb} {rest : List (Script.Command Verb)} {arguments : List String}
    {t : Time} {own records : List Record}
    (expanded : env.expandArguments c.handler.name c.arguments = .ok arguments)
    (isOwn : ∀ r ∈ own, r.sink = env.sink ∧ r.event.IsOwn) (onward : Trace env rest records) :
    Trace env (c :: rest) (⟨env.sink, t, .command c.verb arguments c.line⟩ :: own ++ records)

/-! ## What comes of the commands -/

/-- The first argument that is empty is the one that is reported. -/
theorem of_expandArguments_error {verb : String} {arguments : List String}
    (h : env.expandArguments verb arguments = .error e) :
    ∃ before argument after, arguments = before ++ argument :: after ∧
      (∀ a ∈ before, Script.expandString env.value? a ≠ "") ∧
      Script.expandString env.value? argument = "" ∧ e = .expansion env.name verb argument := by
  induction arguments with
  | nil => cases h
  | cons a rest ih =>
    unfold expandArguments at h ih
    rw [List.mapM_cons] at h
    by_cases hempty : Script.expandString env.value? a = ""
    · rw [expandArgument, hempty] at h
      cases h
      exact ⟨[], a, rest, rfl, List.forall_mem_nil _, hempty, rfl⟩
    · have hargument : env.expandArgument verb a = .ok (Script.expandString env.value? a) := by
        rw [expandArgument, if_neg fun h => hempty (String.isEmpty_iff.1 h)]
      rw [hargument] at h
      cases hrest : rest.mapM (env.expandArgument verb) with
      | ok expanded => rw [hrest] at h; cases h
      | error e' =>
        rw [hrest] at h
        cases h
        obtain ⟨before, argument, after, rfl, hbefore, hargument, rfl⟩ := ih hrest
        exact ⟨a :: before, argument, after, rfl, List.forall_mem_cons.2 ⟨hempty, hbefore⟩, hargument,
          rfl⟩

theorem Starts.perform_ok (h : env.Starts c w (.ok ()) v) : (env.perform c).run w = (.ok (), v) := by
  obtain ⟨arguments, hexpand, hrun⟩ := h
  unfold Environment.perform
  rw [Action.run_bind, Action.run_ask, hexpand]
  simp only
  rw [Action.run_bind, Environment.run_write]
  simp only
  rw [Action.run_mapError, hrun]
  rfl

theorem Fails.perform_error (h : env.Fails c w e v) : (env.perform c).run w = (.error e, v) := by
  unfold Environment.perform
  cases h with
  | expansion harguments hfirst hempty =>
    rw [Action.run_bind, Action.run_ask, harguments, expandArguments_of_empty hfirst hempty]
  | command start =>
    obtain ⟨arguments, hexpand, hrun⟩ := start
    rw [Action.run_bind, Action.run_ask, hexpand]
    simp only
    rw [Action.run_bind, Environment.run_write]
    simp only
    rw [Action.run_mapError, hrun]
    rfl

/-- A command is started and succeeds, or it fails. -/
theorem starts_or_fails (env : Environment) (c : Script.Command Verb) (w : World) :
    (∃ v, env.Starts c w (.ok ()) v) ∨ ∃ e v, env.Fails c w e v := by
  cases hexpand : env.expandArguments c.handler.name c.arguments with
  | error e =>
    obtain ⟨before, argument, after, harguments, hbefore, hempty, rfl⟩ :=
      of_expandArguments_error hexpand
    exact .inr ⟨_, w, .expansion harguments hbefore hempty⟩
  | ok arguments =>
    cases hrun : (c.handler.body env arguments).run
      ((env.write (.command c.verb arguments c.line) : Action RunError Unit).run w).2 with
    | mk x v =>
      cases x with
      | ok x => exact .inl ⟨v, arguments, hexpand, hrun⟩
      | error fault => exact .inr ⟨_, v, .command ⟨arguments, hexpand, hrun⟩⟩

/-- All commands are performed, or those before one that fails. -/
theorem performed_or_fails (env : Environment) (commands : List (Script.Command Verb)) (w : World) :
    (∃ v, env.Performed w commands v) ∨ ∃ done c rest v e v', commands = done ++ c :: rest ∧
      env.Performed w done v ∧ env.Fails c v e v' := by
  induction commands generalizing w with
  | nil => exact .inl ⟨w, .nil⟩
  | cons c commands ih =>
    obtain ⟨v, start⟩ | ⟨e, v, fails⟩ := env.starts_or_fails c w
    · obtain ⟨u, performed⟩ | ⟨done, c', rest, u, e, v', rfl, performed, fails⟩ := ih v
      · exact .inl ⟨u, .cons start performed⟩
      · exact .inr ⟨c :: done, c', rest, u, e, v', rfl, .cons start performed, fails⟩
    · exact .inr ⟨[], c, commands, w, e, v, rfl, .nil, fails⟩

theorem run_execute_cons : (env.execute (c :: rest)).run w = match (env.perform c).run w with
    | (.ok (), v) => (env.execute rest).run v
    | (.error e, v) => (.error e, v) := by
  show (env.perform c >>= fun _ => env.execute rest).run w = _
  rw [Action.run_bind]
  cases (env.perform c).run w with
  | mk x v => cases x <;> rfl

/-- What comes of commands depends on those before them only through the world these leave. -/
theorem Performed.run_execute (h : env.Performed w done v) (rest : List (Script.Command Verb)) :
    (env.execute (done ++ rest)).run w = (env.execute rest).run v := by
  induction h with
  | nil => rfl
  | cons start _ ih => rw [List.cons_append, run_execute_cons, start.perform_ok]; exact ih

/-- The end of a test, from its first command on. -/
theorem toEnd_running {r : Run} {file : Path} :
    Progress.toEnd r file (.running env commands) w = match (env.execute commands).run w with
      | (.ok (), v) => env.cleanUp.run v
      | (.error e, v) => (.error e,
          ((env.write (.failed env.name e.message) : Action RunError Unit).run v).2) := by
  induction commands generalizing w with
  | nil =>
    rw [Progress.toEnd_step rfl, Progress.step_nil, Progress.toEnd_finished]
    rfl
  | cons c rest ih =>
    rw [Progress.toEnd_step rfl, Progress.step_cons, run_execute_cons]
    cases (env.perform c).run w with
    | mk x v =>
      cases x with
      | ok x => exact ih
      | error e => exact Progress.toEnd_finished

/-! ## What the commands write to the log -/

theorem Trace.append {records' : List Record} (h : env.Trace done records)
    (h' : env.Trace rest records') : env.Trace (done ++ rest) (records ++ records') := by
  induction h with
  | nil => exact h'
  | cons expanded isOwn _ ih =>
    rw [List.append_assoc]
    exact .cons expanded isOwn ih

/-- The commands that were started are those that the log tells of. -/
theorem Trace.started (h : env.Trace commands records) :
    (records.filterMap fun r => r.event.started?) = commands.map fun c => (c.verb, c.line) := by
  induction h with
  | nil => rfl
  | cons _ isOwn _ ih =>
    have hown := List.filterMap_eq_nil_iff.2 fun r hr => (isOwn r hr).2.started?
    rw [List.cons_append, List.filterMap_cons, List.filterMap_append, hown, ih]
    rfl

/-- What a command writes to the log. -/
theorem Starts.trace (h : env.Starts c w x v) (standard : c.handler ∈ Verb.standard.handlers) :
    ∃ records, env.Trace [c] records ∧ v.journal = w.journal ++ records := by
  obtain ⟨arguments, hexpand, hrun⟩ := h
  obtain ⟨own, hown, isOwn⟩ := Verb.emits_standard standard env arguments
    ((env.write (.command c.verb arguments c.line) : Action RunError Unit).run w).2
  rw [hrun] at hown
  refine ⟨_, .cons (t := Action.time w) hexpand isOwn .nil, ?_⟩
  rw [List.append_nil, hown]
  unfold Environment.write
  rw [LogSink.run_write, List.append_assoc]
  rfl

theorem Performed.trace (h : env.Performed w commands v)
    (standard : ∀ c ∈ commands, c.handler ∈ Verb.standard.handlers) :
    ∃ records, env.Trace commands records ∧ v.journal = w.journal ++ records := by
  induction h with
  | nil => exact ⟨[], .nil, (List.append_nil _).symm⟩
  | cons start _ ih =>
    obtain ⟨hc, hrest⟩ := List.forall_mem_cons.1 standard
    obtain ⟨first, htrace, hfirst⟩ := start.trace hc
    obtain ⟨records, htrace', hrecords⟩ := ih hrest
    exact ⟨first ++ records, htrace.append htrace', by rw [hrecords, hfirst, List.append_assoc]⟩

/-- The command itself if it is started at all. -/
def startedOf (env : Environment) (c : Script.Command Verb) : List (Script.Command Verb) :=
  if (env.expandArguments c.handler.name c.arguments).isOk then [c] else []

theorem Fails.trace (h : env.Fails c w e v) (standard : c.handler ∈ Verb.standard.handlers) :
    ∃ records, env.Trace (env.startedOf c) records ∧ v.journal = w.journal ++ records := by
  unfold startedOf
  cases h with
  | expansion harguments hfirst hempty =>
    rw [harguments, expandArguments_of_empty hfirst hempty]
    exact ⟨[], .nil, (List.append_nil _).symm⟩
  | command start =>
    have htrace := start.trace standard
    obtain ⟨arguments, hexpand, -⟩ := start
    rw [hexpand]
    exact htrace

/-- The commands of a test are performed in order, and if none fails the test goes on to its end. Else
the first that fails ends it: the world is as the commands before it and its own verb have left it,
whatever commands come after it, the error is its own, and all that is added is the record of the
failure. The log tells of the commands before it, with their lines and what they did, and of itself if
its arguments could be expanded. -/
theorem execute_fail_fast (env : Environment) (commands : List (Script.Command Verb)) (r : Run)
    (file : Path) (w : World) :
    (∃ v, env.Performed w commands v ∧ (env.execute commands).run w = (.ok (), v) ∧
      Progress.toEnd r file (.running env commands) w = env.cleanUp.run v ∧
      ((∀ c ∈ commands, c.handler ∈ Verb.standard.handlers) → ∃ records,
        env.Trace commands records ∧ v.journal = w.journal ++ records)) ∨
    ∃ done c rest v e v', commands = done ++ c :: rest ∧ env.Performed w done v ∧
      env.Fails c v e v' ∧ (∀ rest, (env.execute (done ++ c :: rest)).run w = (.error e, v')) ∧
      ∃ v'', Progress.toEnd r file (.running env commands) w = (.error e, v'') ∧
        (env.write (.failed env.name e.message) : Action RunError Unit).run v' = (.ok (), v'') ∧
        ((∀ c ∈ commands, c.handler ∈ Verb.standard.handlers) → ∃ records t,
          env.Trace (done ++ env.startedOf c) records ∧
          (records.filterMap fun r => r.event.started?) =
            (done ++ env.startedOf c).map (fun c => (c.verb, c.line)) ∧
          v''.journal = w.journal ++ records ++ [⟨env.sink, t, .failed env.name e.message⟩]) := by
  obtain ⟨v, performed⟩ | ⟨done, c, rest, v, e, v', rfl, performed, fails⟩ :=
    env.performed_or_fails commands w
  · have hrun : (env.execute commands).run w = (.ok (), v) := by
      have hexecute := performed.run_execute []
      rw [List.append_nil] at hexecute
      exact hexecute
    refine .inl ⟨v, performed, hrun, ?_, performed.trace⟩
    rw [toEnd_running, hrun]
  · have hrun : ∀ rest, (env.execute (done ++ c :: rest)).run w = (.error e, v') := by
      intro rest
      rw [performed.run_execute, run_execute_cons, fails.perform_error]
    refine .inr ⟨done, c, rest, v, e, v', rfl, performed, fails, hrun, _, ?_,
      Environment.run_write env _ v', fun standard => ?_⟩
    · rw [toEnd_running, hrun]
    · obtain ⟨hdone, hrest⟩ := List.forall_mem_append.1 standard
      obtain ⟨before, htrace, hbefore⟩ := performed.trace hdone
      obtain ⟨last, htrace', hlast⟩ := fails.trace (List.forall_mem_cons.1 hrest).1
      have htraced := htrace.append htrace'
      refine ⟨before ++ last, Action.time v', htraced, htraced.started, ?_⟩
      unfold Environment.write
      rw [LogSink.run_write, hlast, hbefore, List.append_assoc w.journal]

end Environment

end TwinTrees
