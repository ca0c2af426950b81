import Mathlib.Data.List.Perm.Basic
import Mathlib.Data.Option.Basic
import Mathlib.Order.Monotone.Defs
import TwinTrees.Proofs.Script.Layout

/-!
# The history of a registry

A registry is asked to register verbs, to look them up, to list them, and to read scripts with them.
What it answers is known from the registrations that were asked for before: the first one of a verb
counts and every later one is refused, as if it had not been asked for
(`answers_by_first_registrations`).

Calls exclude each other, but reading a script is one look-up after another, and other calls may come
between them. Handlers are only added, so a script that is read over a stretch of the history is read
as if at one moment of it (`exists_parse_of_parseAlong`).
-/

namespace TwinTrees

namespace Registry

variable {β : Type} {r r' : Registry β} {h : Handler β} {verb : String}

/-! ## Calls and answers -/

/-- What a registry can be asked. -/
inductive Call (β : Type)
  | register (h : Handler β)
  | lookup (verb : String)
  | has (verb : String)
  | verbs
  | size
  | parse (file source : String)

/-- What a registry answers. -/
inductive Answer (β : Type)
  | registered
  | refused (e : AlreadyRegistered)
  | handler (found : Option (Handler β))
  | known (there : Bool)
  | verbs (names : List String)
  | size (n : Nat)
  | parsed (result : Except Script.ScriptError (List (Script.Command β)))

/-- The answer to a call. -/
def answer (r : Registry β) : Call β → Answer β
  | .register h =>
    match r.register h with
    | .ok _ => .registered
    | .error e => .refused e
  | .lookup verb => .handler (r.lookup verb)
  | .has verb => .known (r.has verb)
  | .verbs => .verbs r.verbs
  | .size => .size r.size
  | .parse file source => .parsed (Script.parse r file source)

/-- The registry after a call. -/
def after (r : Registry β) : Call β → Registry β
  | .register h =>
    match r.register h with
    | .ok r' => r'
    | .error _ => r
  | _ => r

/-- The registry after calls, one after the other. -/
def afterAll (r : Registry β) (calls : List (Call β)) : Registry β := calls.foldl after r

/-- The answers to calls, one after the other. -/
def answers (r : Registry β) : List (Call β) → List (Answer β)
  | [] => []
  | c :: rest => r.answer c :: (r.after c).answers rest

/-- The handler that a call asks to register. -/
def Call.handler? : Call β → Option (Handler β)
  | .register h => some h
  | _ => none

/-- The handlers that calls ask to register, those that are refused among them. -/
def attempts (calls : List (Call β)) : List (Handler β) := calls.filterMap Call.handler?

/-- The verbs that calls ask to register. -/
def attempted (calls : List (Call β)) : List String := (attempts calls).map Handler.name

theorem afterAll_append (r : Registry β) (calls later : List (Call β)) :
    r.afterAll (calls ++ later) = (r.afterAll calls).afterAll later := List.foldl_append

theorem answers_append (r : Registry β) (calls later : List (Call β)) :
    r.answers (calls ++ later) = r.answers calls ++ (r.afterAll calls).answers later := by
  induction calls generalizing r with
  | nil => rfl
  | cons c rest ih => exact congrArg (r.answer c :: ·) (ih (r.after c))

theorem length_answers (r : Registry β) (calls : List (Call β)) :
    (r.answers calls).length = calls.length := by
  induction calls generalizing r with
  | nil => rfl
  | cons c rest ih => exact congrArg (· + 1) (ih (r.after c))

/-! ## One call -/

theorem has_iff : r.has verb = true ↔ verb ∈ r.handlers.map Handler.name := by
  rw [has, Option.isSome_iff_ne_none, Ne, lookup_eq_none_iff, not_not]

/-- A verb that is not taken is registered after those that are there. -/
theorem register_of_free (free : r.lookup h.name = none) :
    ∃ r', r.register h = .ok r' ∧ r'.handlers = r.handlers ++ [h] := by
  unfold register
  rw [dif_pos free]
  exact ⟨_, rfl, rfl⟩

theorem register_of_taken (taken : r.lookup h.name ≠ none) :
    r.register h = .error ⟨h.name⟩ := by
  unfold register
  rw [dif_neg taken]

/-- A registration that is refused leaves the registry as it is. -/
theorem after_of_taken (taken : r.lookup h.name ≠ none) : r.after (.register h) = r := by
  rw [after, register_of_taken taken]

/-- What was found before a call is found after it, and then the handler of the call. -/
theorem lookup_after (r : Registry β) (c : Call β) (verb : String) :
    (r.after c).lookup verb =
      (r.lookup verb).or (c.handler?.toList.find? fun h => h.name == verb) := by
  cases c with
  | register h =>
    by_cases free : r.lookup h.name = none
    · obtain ⟨r', hregister, hhandlers⟩ := register_of_free free
      rw [after, hregister]
      show r'.handlers.find? _ = _
      rw [hhandlers, List.find?_append]
      rfl
    · rw [after_of_taken free]
      by_cases hname : h.name = verb
      · -- The verb is taken, so the handler of the call does not count.
        obtain ⟨first, hfirst⟩ := Option.ne_none_iff_exists'.1 free
        rw [← hname, hfirst]
        rfl
      · have hnone : (Call.register h).handler?.toList.find? (fun h => h.name == verb) = none := by
          simp [Call.handler?, hname]
        rw [hnone, Option.or_none]
  | lookup _ | has _ | verbs | size | parse _ _ => exact (Option.or_none).symm

/-- A call takes no handler away. -/
theorem handlers_prefix_after (r : Registry β) (c : Call β) :
    r.handlers <+: (r.after c).handlers := by
  cases c with
  | register h =>
    by_cases free : r.lookup h.name = none
    · obtain ⟨r', hregister, hhandlers⟩ := register_of_free free
      rw [after, hregister]
      show r.handlers <+: r'.handlers
      rw [hhandlers]
      exact List.prefix_append _ _
    · exact ⟨[], by rw [List.append_nil, after_of_taken free]⟩
  | lookup _ | has _ | verbs | size | parse _ _ => exact List.prefix_rfl

/-! ## Many calls -/

/-- The first handler that was asked to be registered for a verb is found. -/
theorem lookup_afterAll (r : Registry β) (calls : List (Call β)) (verb : String) :
    (r.afterAll calls).lookup verb =
      (r.lookup verb).or ((attempts calls).find? fun h => h.name == verb) := by
  induction calls generalizing r with
  | nil => exact (Option.or_none).symm
  | cons c rest ih =>
    have hattempts : attempts (c :: rest) = c.handler?.toList ++ attempts rest := by
      rw [attempts, List.filterMap_cons]
      cases c.handler? <;> rfl
    show ((r.after c).afterAll rest).lookup verb = _
    rw [ih, lookup_after, hattempts, List.find?_append, Option.or_assoc]

theorem lookup_afterAll_empty (calls : List (Call β)) (verb : String) :
    ((empty : Registry β).afterAll calls).lookup verb =
      (attempts calls).find? fun h => h.name == verb := by
  rw [lookup_afterAll]
  rfl

theorem handlers_prefix_afterAll (r : Registry β) (calls : List (Call β)) :
    r.handlers <+: (r.afterAll calls).handlers := by
  induction calls generalizing r with
  | nil => exact List.prefix_rfl
  | cons c rest ih => exact (handlers_prefix_after r c).trans (ih (r.after c))

theorem lookup_ne_none_iff (calls : List (Call β)) (verb : String) :
    ((empty : Registry β).afterAll calls).lookup verb ≠ none ↔ verb ∈ attempted calls := by
  rw [lookup_afterAll_empty, Ne, List.find?_eq_none, attempted, List.mem_map]
  simp only [beq_iff_eq, not_forall, not_not, exists_prop]

/-! ## The list of verbs -/

theorem mem_verbs : verb ∈ r.verbs ↔ r.has verb = true := by
  rw [has_iff, verbs, (List.mergeSort_perm _ _).mem_iff]

theorem length_verbs (r : Registry β) : r.verbs.length = r.size := by
  rw [verbs, List.length_mergeSort, List.length_map, size]

theorem nodup_verbs (r : Registry β) : r.verbs.Nodup :=
  (List.mergeSort_perm _ _).nodup_iff.2 r.distinct

theorem verbs_le (r : Registry β) : r.verbs.Pairwise (· ≤ ·) := by
  have htotal : ∀ a b : String, (decide (a ≤ b) || decide (b ≤ a)) = true := by
    intro a b
    rw [Bool.or_eq_true, decide_eq_true_iff, decide_eq_true_iff]
    exact String.le_total a b
  have hsorted : r.verbs.Pairwise fun a b => decide (a ≤ b) = true := by
    refine List.pairwise_mergeSort (fun a b c hab hbc => ?_) htotal _
    exact decide_eq_true (String.le_trans (of_decide_eq_true hab) (of_decide_eq_true hbc))
  exact hsorted.imp of_decide_eq_true

/-- The verbs are listed in increasing order, each of them once. -/
theorem verbs_lt (r : Registry β) : r.verbs.Pairwise (· < ·) := by
  refine (r.verbs_le.and r.nodup_verbs).imp fun {a b} hab => ?_
  obtain ⟨hle, hne⟩ := hab
  by_contra hlt
  exact hne (String.le_antisymm hle (String.not_lt.1 hlt))

/-- Registries of the same verbs list them in the same way. -/
theorem verbs_congr (same : ∀ verb, r.has verb = true ↔ r'.has verb = true) :
    r.verbs = r'.verbs := by
  have hperm : List.Perm r.verbs r'.verbs := by
    rw [List.perm_ext_iff_of_nodup r.nodup_verbs r'.nodup_verbs]
    intro verb
    rw [mem_verbs, mem_verbs]
    exact same verb
  exact hperm.eq_of_pairwise (fun a b _ _ hab hba => String.le_antisymm hab hba) r.verbs_le
    r'.verbs_le

end Registry

/-! ## Reading scripts -/

namespace Script

open Registry (Call)

variable {β : Type} {r r' : Registry β} {registryAt : Nat → Registry β} {file : String}
  {lines : List LogicalLine} {commands : List (Command β)}

/-- A command stays what it is where handlers are added. -/
theorem LogicalLine.command?_of_grows {l : LogicalLine} {c : Command β}
    (grows : r.handlers <+: r'.handlers) (h : l.command? r = .ok c) : l.command? r' = .ok c := by
  unfold command? at h ⊢
  split at h
  · cases h
  · cases h
  · next verb arguments _ =>
    cases hlookup : r.lookup (String.ofList verb) with
    | none => rw [hlookup] at h; cases h
    | some handler =>
      rw [hlookup] at h
      have hlookup' : r'.lookup (String.ofList verb) = some handler :=
        grows.find?_eq_some hlookup
      simp only [hlookup']
      exact h

theorem commandsOf_of_grows (grows : r.handlers <+: r'.handlers)
    (h : commandsOf r file lines = .ok commands) : commandsOf r' file lines = .ok commands := by
  induction lines generalizing commands with
  | nil => exact h
  | cons l rest ih =>
    rw [commandsOf] at h ⊢
    cases hl : l.command? r with
    | error fault => rw [hl] at h; cases h
    | ok c =>
      rw [hl] at h
      rw [LogicalLine.command?_of_grows grows hl]
      cases hrest : commandsOf r file rest with
      | error e => simp only [hrest, Except.map] at h; cases h
      | ok others => simp only [hrest] at h; simp only [ih hrest]; exact h

theorem parse_of_grows {source : String} (grows : r.handlers <+: r'.handlers)
    (h : parse r file source = .ok commands) : parse r' file source = .ok commands := by
  obtain ⟨hcommands, hfinished⟩ := parse_eq_ok r file h
  unfold parse
  simp only [commandsOf_of_grows grows hcommands, hfinished]

/-- The handler of a command is the one that its first word is registered for. -/
theorem LogicalLine.lookup_of_command? {l : LogicalLine} {c : Command β}
    (h : l.command? r = .ok c) : r.lookup c.verb = some c.handler := by
  unfold command? at h
  split at h
  · cases h
  · cases h
  · split at h
    · cases h
    · next hlookup => cases h; exact hlookup

theorem lookup_of_parse {source : String} (h : parse r file source = .ok commands) :
    ∀ c ∈ commands, r.lookup c.verb = some c.handler := by
  have hlines := forall₂_of_commandsOf r (parse_eq_ok r file h).1
  intro c hc
  obtain ⟨i, hi, rfl⟩ := List.getElem_of_mem hc
  exact LogicalLine.lookup_of_command? (hlines.get hi (hlines.length_eq ▸ hi))

/-- The commands on logical lines, where the registry may be another one at each line. -/
def commandsAlong (registryAt : Nat → Registry β) (file : String) :
    Nat → List LogicalLine → Except ScriptError (List (Command β))
  | _, [] => .ok []
  | i, l :: rest =>
    match l.command? (registryAt i) with
    | .error fault => .error (l.error file fault)
    | .ok command => (commandsAlong registryAt file (i + 1) rest).map (command :: ·)

/-- The commands of a script, where the verb of each line is looked up in a registry of its own. -/
def parseAlong (registryAt : Nat → Registry β) (file source : String) :
    Except ScriptError (List (Command β)) :=
  let (lines, unfinished) := logicalLines source.toList
  match commandsAlong registryAt file 0 lines, unfinished with
  | .error e, _ => .error e
  | .ok _, some l => .error (l.error file .unfinishedLine)
  | .ok commands, none => .ok commands

theorem commandsAlong_const (r : Registry β) (file : String) (i : Nat) (lines : List LogicalLine) :
    commandsAlong (fun _ => r) file i lines = commandsOf r file lines := by
  induction lines generalizing i with
  | nil => rfl
  | cons l rest ih =>
    rw [commandsAlong, commandsOf]
    cases l.command? r with
    | error fault => rfl
    | ok command => exact congrArg (Except.map (command :: ·)) (ih (i + 1))

/-- A script that is read while nothing happens to the registry. -/
theorem parseAlong_const (r : Registry β) (file source : String) :
    parseAlong (fun _ => r) file source = parse r file source := by
  have hcommands := commandsAlong_const r file 0 (logicalLines source.toList).1
  unfold parseAlong parse
  cases hlines : commandsOf r file (logicalLines source.toList).1 <;>
    cases hunfinished : (logicalLines source.toList).2 <;>
    simp only [hcommands, hlines, hunfinished]

/-- Lines are read as if at one moment: that of the last look-up if all are commands, and else that
of the look-up that failed, since what was found before is still found then. -/
theorem exists_commandsOf_of_commandsAlong (file : String)
    (grows : ∀ i j, i ≤ j → (registryAt i).handlers <+: (registryAt j).handlers) (i : Nat)
    (lines : List LogicalLine) :
    (∀ commands, commandsAlong registryAt file i lines = .ok commands →
      ∀ j, i + lines.length ≤ j + 1 → commandsOf (registryAt j) file lines = .ok commands) ∧
    ∀ e, commandsAlong registryAt file i lines = .error e →
      ∃ j, i ≤ j ∧ j < i + lines.length ∧ commandsOf (registryAt j) file lines = .error e := by
  induction lines generalizing i with
  | nil => exact ⟨fun commands h _ _ => h, fun _ h => by cases h⟩
  | cons l rest ih =>
    obtain ⟨hok, herror⟩ := ih (i + 1)
    simp only [commandsAlong, commandsOf, List.length_cons]
    cases hl : l.command? (registryAt i) with
    | error fault =>
      refine ⟨fun _ h => (by cases h), fun e he => ⟨i, Nat.le_refl i, by omega, ?_⟩⟩
      rw [hl]
      exact he
    | ok c =>
      have hlater : ∀ j, i ≤ j → l.command? (registryAt j) = .ok c := fun j hj =>
        LogicalLine.command?_of_grows (grows i j hj) hl
      cases hrest : commandsAlong registryAt file (i + 1) rest with
      | ok others =>
        refine ⟨fun commands h j hj => ?_, fun _ h => by cases h⟩
        rw [hlater j (by omega)]
        simp only [hok others hrest j (by omega)]
        exact h
      | error e =>
        refine ⟨fun _ h => (by cases h), fun e' he' => ?_⟩
        cases he'
        obtain ⟨j, hij, hj, hfails⟩ := herror e hrest
        refine ⟨j, by omega, by omega, ?_⟩
        rw [hlater j (by omega)]
        simp only [hfails]
        rfl

/-- A script that is read while handlers are added is read as if at one of the moments at which a
verb of it is looked up. -/
theorem exists_parse_of_parseAlong
    (grows : ∀ i j, i ≤ j → (registryAt i).handlers <+: (registryAt j).handlers)
    (file source : String) :
    ∃ k, k ≤ (logicalLines source.toList).1.length - 1 ∧
      parseAlong registryAt file source = parse (registryAt k) file source := by
  obtain ⟨hok, herror⟩ := exists_commandsOf_of_commandsAlong file grows 0
    (logicalLines source.toList).1
  unfold parseAlong parse
  simp only
  cases halong : commandsAlong registryAt file 0 (logicalLines source.toList).1 with
  | ok commands =>
    refine ⟨(logicalLines source.toList).1.length - 1, Nat.le_refl _, ?_⟩
    have hcommands := hok commands halong ((logicalLines source.toList).1.length - 1) (by omega)
    cases (logicalLines source.toList).2 <;> rw [hcommands]
  | error e =>
    obtain ⟨k, -, hk, hfails⟩ := herror e halong
    refine ⟨k, by omega, ?_⟩
    rw [hfails]

end Script

/-! ## The history -/

namespace Registry

variable {β : Type}

/-- What a registry holds, by the calls that were made from the start. -/
structure Records (calls : List (Call β)) (r : Registry β) : Prop where
  /-- The handler of the first registration of the verb, if there was one. -/
  lookup : ∀ verb, r.lookup verb = (attempts calls).find? fun h => h.name == verb
  has : ∀ verb, r.has verb = true ↔ verb ∈ attempted calls
  increasing : r.verbs.Pairwise (· < ·)
  verbs : ∀ verb, verb ∈ r.verbs ↔ verb ∈ attempted calls
  size : r.verbs.length = r.size

/-- A history of calls on an empty registry. Each verb has the handler of its first registration; the
verbs are listed in increasing order, whatever the order of their registrations. A further
registration of a verb is refused, and the answers to all later calls are those that there are
without it. A script that can be read has commands with the handlers of their first words, and keeps
them whatever is registered later; one that is read while other calls are made is read as if at one
moment of its reading. -/
theorem answers_by_first_registrations (calls : List (Call β)) :
    Records calls (empty.afterAll calls) ∧
    (∀ others : List (Call β), (∀ verb, verb ∈ attempted others ↔ verb ∈ attempted calls) →
      (empty.afterAll others).verbs = (empty.afterAll calls).verbs) ∧
    (∀ h, h.name ∉ attempted calls → (empty.afterAll calls).answer (.register h) = .registered) ∧
    (∀ h later, h.name ∈ attempted calls →
      empty.answers (calls ++ .register h :: later) =
        empty.answers calls ++ .refused ⟨h.name⟩ ::
          (empty.answers (calls ++ later)).drop calls.length) ∧
    (∀ file source commands, Script.parse (empty.afterAll calls) file source = .ok commands →
      (∀ c ∈ commands, c.words.head? = some c.handler.name ∧
        (attempts calls).find? (fun h => h.name == c.verb) = some c.handler) ∧
      ∀ later, Script.parse (empty.afterAll (calls ++ later)) file source = .ok commands) ∧
    ∀ file source (moment : Nat → Nat), Monotone moment →
      ∃ k, k ≤ (Script.logicalLines source.toList).1.length - 1 ∧
        Script.parseAlong (fun i => empty.afterAll (calls.take (moment i))) file source =
          Script.parse (empty.afterAll (calls.take (moment k))) file source := by
  have hhas (calls : List (Call β)) (verb : String) :
      ((empty : Registry β).afterAll calls).has verb = true ↔ verb ∈ attempted calls := by
    rw [has, Option.isSome_iff_ne_none, lookup_ne_none_iff]
  refine ⟨?_, fun others same => ?_, fun h free => ?_, fun h later taken => ?_,
    fun file source commands hparse => ⟨fun c hc => ?_, fun later => ?_⟩,
    fun file source moment increasing => ?_⟩
  · exact {
      lookup := lookup_afterAll_empty calls
      has := hhas calls
      increasing := verbs_lt _
      verbs := fun verb => mem_verbs.trans (hhas calls verb)
      size := length_verbs _ }
  · refine verbs_congr fun verb => ?_
    rw [hhas, hhas]
    exact same verb
  · rw [← lookup_ne_none_iff, not_not] at free
    obtain ⟨r', hregister, -⟩ := register_of_free free
    rw [answer, hregister]
  · rw [← lookup_ne_none_iff] at taken
    have hrefused : (empty.afterAll calls).answer (.register h) = .refused ⟨h.name⟩ := by
      rw [answer, register_of_taken taken]
    rw [answers_append, answers_append, answers, hrefused, after_of_taken taken,
      List.drop_append_of_le_length (Nat.le_of_eq (length_answers _ _).symm), ← length_answers,
      List.drop_length, List.nil_append]
  · have hlookup := Script.lookup_of_parse hparse c hc
    refine ⟨?_, (lookup_afterAll_empty calls c.verb).symm.trans hlookup⟩
    rw [name_of_lookup hlookup]
    rfl
  · rw [afterAll_append]
    exact Script.parse_of_grows (handlers_prefix_afterAll _ later) hparse
  · refine Script.exists_parse_of_parseAlong (fun i j hij => ?_) file source
    -- What is there after fewer calls is there after more.
    obtain ⟨between, hbetween⟩ := List.take_prefix_take_left (l := calls) (increasing hij)
    show (empty.afterAll (calls.take (moment i))).handlers <+: _
    rw [← hbetween, afterAll_append]
    exact handlers_prefix_afterAll _ between

/-- Two verbs, one of them asked for again: it keeps its handler, which the script in between and
after finds, and the script that is begun before the second verb is there is not read. -/
theorem verb_keeps_first_handler :
    let calls : List (Call Nat) := [.register ⟨"rm", 0⟩, .lookup "cp", .register ⟨"cp", 1⟩]
    let others : List (Call Nat) :=
      [.register ⟨"cp", 7⟩, .register ⟨"rm", 8⟩, .verbs, .register ⟨"cp", 9⟩]
    let moment : Nat → Nat := (· + 1)
    (empty.afterAll others).verbs = (empty.afterAll calls).verbs ∧
    (empty.afterAll calls).answer (.register ⟨"mv", 2⟩) = .registered ∧
    empty.answers (calls ++ [.register ⟨"rm", 3⟩, .lookup "rm", .size]) =
      [.registered, .handler none, .registered, .refused ⟨"rm"⟩, .handler (some ⟨"rm", 0⟩),
        .size 2] ∧
    (∃ commands, Script.parse (empty.afterAll calls) "x.t" "rm a\ncp" = .ok commands ∧
      commands.map (fun c => c.handler.body) = [0, 1] ∧
      (∀ c ∈ commands, c.words.head? = some c.handler.name) ∧
      Script.parse (empty.afterAll (calls ++ [.register ⟨"cp", 4⟩, .register ⟨"mv", 5⟩])) "x.t"
        "rm a\ncp" = .ok commands) ∧
    ∃ k, k ≤ 1 ∧
      Script.parseAlong (fun i => empty.afterAll (calls.take (moment i))) "x.t" "rm a\ncp" =
        Script.parse (empty.afterAll (calls.take (moment k))) "x.t" "rm a\ncp" := by
  intro calls others moment
  obtain ⟨-, order, free, taken, reads, along⟩ := answers_by_first_registrations calls
  have hothers : ∀ verb, verb ∈ attempted others ↔ verb ∈ attempted calls := by
    intro verb
    have hfirst : attempted others = ["cp", "rm", "cp"] := rfl
    have hsecond : attempted calls = ["rm", "cp"] := rfl
    rw [hfirst, hsecond]
    grind
  have hfree : (⟨"mv", 2⟩ : Handler Nat).name ∉ attempted calls := by decide
  have htaken : (⟨"rm", 3⟩ : Handler Nat).name ∈ attempted calls := by decide
  have hlater : (empty.answers (calls ++ [.lookup "rm", .size])).drop calls.length =
      [.handler (some ⟨"rm", 0⟩), .size 2] := rfl
  obtain ⟨commands, hparse, hbodies⟩ : ∃ commands,
      Script.parse (empty.afterAll calls) "x.t" "rm a\ncp" = .ok commands ∧
        commands.map (fun c => c.handler.body) = [0, 1] := ⟨_, rfl, rfl⟩
  obtain ⟨heads, stays⟩ := reads "x.t" "rm a\ncp" commands hparse
  refine ⟨order others hothers, free _ hfree, ?_, ⟨commands, hparse, hbodies,
    fun c hc => (heads c hc).1, stays _⟩, along "x.t" "rm a\ncp" moment fun i j hij => ?_⟩
  · rw [taken ⟨"rm", 3⟩ [.lookup "rm", .size] htaken, hlater]
    rfl
  · exact Nat.succ_le_succ hij

end Registry

end TwinTrees
