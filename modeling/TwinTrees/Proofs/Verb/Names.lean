import Mathlib.Data.List.Nodup
import TwinTrees.Proofs.Path.Steps
import TwinTrees.Run.Progress
import TwinTrees.Verb.Standard

/-!
# The names in scripts

A command refers to entries by names on one side or both, which its verb finds in the expanded
arguments. A name is local if it is relative and has no `..`; then the path of the name on a side
leads to that side and never up again.
-/

namespace TwinTrees

/-- The name is relative and has no `..`. -/
structure IsLocal (name : String) : Prop where
  relative : (Path.mk name).isAbsolute = false
  noUp : Component.up ∉ (Path.mk name).components

instance : DecidablePred IsLocal := fun name =>
  decidable_of_iff ((Path.mk name).isAbsolute = false ∧ Component.up ∉ (Path.mk name).components)
    ⟨fun ⟨relative, noUp⟩ => ⟨relative, noUp⟩, fun h => ⟨h.relative, h.noUp⟩⟩

namespace Verb

/-- The names in sided arguments, as far as these can be read. -/
def sidedNames (arguments : List String) : List String :=
  arguments.flatMap fun argument =>
    match readSided argument with
    | .ok (_, names) => names
    | .error _ => []

/-- Both names of each link, as far as these can be read. -/
def linkNames (pairs : List String) : List String :=
  pairs.flatMap fun pair =>
    match readLink pair with
    | .ok (new, old) => [new, old]
    | .error _ => []

/-- The names of entries in the arguments of a verb. -/
def namesIn (verb : String) (arguments : List String) : List String :=
  match verb with
  | "mkfile" =>
    match MakeRequest.read arguments with
    | .ok r => r.names
    | .error _ => []
  | "clone" => arguments
  | "rm" => sidedNames arguments
  | "mutate" =>
    match MutateRequest.read arguments with
    | .ok r => sidedNames r.files
    | .error _ => []
  | "symlink" => linkNames (sidedNames arguments)
  | _ => []

/-- The sides in sided arguments, as far as these can be read. -/
def sidedSides (arguments : List String) : List Side :=
  arguments.filterMap fun argument =>
    match readSided argument with
    | .ok (side, _) => some side
    | .error _ => none

/-- The sides on which the arguments of a verb name entries. -/
def sidesIn (verb : String) (arguments : List String) : List Side :=
  match verb with
  | "mkfile" =>
    match MakeRequest.read arguments with
    | .ok { target := .side side, .. } => [side]
    | .ok { target := .both, .. } => [.lhs, .rhs]
    | .error _ => []
  | "clone" => [.lhs, .rhs]
  | "rm" | "symlink" => sidedSides arguments
  | "mutate" =>
    match MutateRequest.read arguments with
    | .ok r => sidedSides r.files
    | .error _ => []
  | _ => []

/-- The verb makes, removes, links or changes entries of the left side only, and the arguments give
them local names. -/
structure Stages (verb : String) (arguments : List String) : Prop where
  stages : verb ∈ ["mkfile", "rm", "symlink", "mutate"]
  left : ∀ side ∈ sidesIn verb arguments, side = .lhs
  names : ∀ name ∈ namesIn verb arguments, IsLocal name

instance (verb : String) (arguments : List String) : Decidable (Stages verb arguments) :=
  decidable_of_iff (verb ∈ ["mkfile", "rm", "symlink", "mutate"] ∧
      (∀ side ∈ sidesIn verb arguments, side = .lhs) ∧
      ∀ name ∈ namesIn verb arguments, IsLocal name)
    ⟨fun ⟨stages, left, names⟩ => ⟨stages, left, names⟩, fun h => ⟨h.stages, h.left, h.names⟩⟩

/-- The names on a side in sided arguments, as far as these can be read. -/
def namesOn (side : Side) (arguments : List String) : List String :=
  arguments.flatMap fun argument =>
    match readSided argument with
    | .ok (other, names) => if other = side then names else []
    | .error _ => []

/-- The verb does the same to both sides, and the arguments give it local names: it makes entries on
both sides, copies the whole left side, removes the same names from both sides, or gives both one
time. -/
structure Pairs (verb : String) (arguments : List String) : Prop where
  pairs : verb ∈ ["mkfile", "clone", "rm", "sync", "touch"]
  both : verb = "mkfile" → ∀ r ∈ (MakeRequest.read arguments).toOption, r.target = .both
  whole : verb = "clone" → arguments = []
  alike : verb = "rm" →
    ∀ name, name ∈ namesOn .lhs arguments ↔ name ∈ namesOn .rhs arguments
  names : ∀ name ∈ namesIn verb arguments, IsLocal name

instance (verb : String) (arguments : List String) : Decidable (Pairs verb arguments) :=
  decidable_of_iff (verb ∈ ["mkfile", "clone", "rm", "sync", "touch"] ∧
      (verb = "mkfile" → ∀ r ∈ (MakeRequest.read arguments).toOption, r.target = .both) ∧
      (verb = "clone" → arguments = []) ∧
      (verb = "rm" → (∀ name ∈ namesOn .lhs arguments, name ∈ namesOn .rhs arguments) ∧
        ∀ name ∈ namesOn .rhs arguments, name ∈ namesOn .lhs arguments) ∧
      ∀ name ∈ namesIn verb arguments, IsLocal name)
    ⟨fun ⟨pairs, both, whole, alike, names⟩ =>
        ⟨pairs, both, whole, fun h name => ⟨(alike h).1 name, (alike h).2 name⟩, names⟩,
      fun h => ⟨h.pairs, h.both, h.whole,
        fun heq => ⟨fun name => (h.alike heq name).1, fun name => (h.alike heq name).2⟩, h.names⟩⟩

end Verb

namespace Path

/-- A `..` is a component of the path and a step along it. -/
theorem up_mem_components {p : Path} (h : .up ∈ p.steps) : Component.up ∈ p.components := by
  have hup : ∀ x ∈ p.segments, x.1 = ['.', '.'] → x.2 = some .up := by
    intro x hx hdots
    obtain hcomp | ⟨hdot, -⟩ := component_of_mem_segments hx
    · rw [hcomp, hdots]
      rfl
    · rw [hdots] at hdot
      cases hdot
  rw [(segments_spec p).1] at h
  obtain ⟨s, hs, hstep⟩ := List.mem_filterMap.1 h
  obtain ⟨x, hx, rfl⟩ := List.mem_map.1 hs
  have hdots : x.1 = ['.', '.'] := by
    unfold Step.of? at hstep
    split at hstep
    · cases hstep
    · split at hstep
      · cases hstep
      · split at hstep
        · assumption
        · cases hstep
  exact List.mem_append_right _ (List.mem_filterMap.2 ⟨x, hx, hup x hx hdots⟩)

/-- A relative path that is not empty has a step. -/
theorem steps_ne_nil {p : Path} (hrel : p.isAbsolute = false) (hne : p.text.toList ≠ []) :
    p.steps ≠ [] := by
  unfold steps
  cases htext : p.text.toList with
  | nil => exact absurd htext hne
  | cons c rest =>
    have hc : c ≠ '/' := by
      rintro rfl
      rw [isAbsolute_eq_true_iff.2 ⟨rest, htext⟩] at hrel
      cases hrel
    have hstep : ∀ s : List Char, ∃ st, Step.of? (c :: s) = some st := by
      intro s
      unfold Step.of?
      rw [if_neg nofun]
      split
      · exact ⟨_, rfl⟩
      · split <;> exact ⟨_, rfl⟩
    rw [Text.splitAll, if_neg hc]
    split
    · obtain ⟨st, hst⟩ := hstep []
      simp [hst]
    · next piece pieces _ =>
      obtain ⟨st, hst⟩ := hstep piece
      simp [hst]

end Path

theorem IsLocal.descends {name : String} (h : IsLocal name) : Descends (Path.mk name).steps :=
  Path.descends_iff.2 fun hup => h.noUp (Path.up_mem_components hup)

/-! ## Reading names -/

namespace Text

/-- What holds of the word that is begun and of the words after it, as a text is read from the
right. -/
theorem blankSeparated_induction {P : List Char → List (List Char) → Prop} (start : P [] [])
    (blank : ∀ first words, P first words → P [] (if first.isEmpty then words else first :: words))
    (letter : ∀ c first words, isBlank c = false → P first words → P (c :: first) words)
    (s : List Char) :
    ∃ first words, P first words ∧
      blankSeparated s = if first.isEmpty then words else first :: words := by
  have fold (s : List Char) :
      let x := s.foldr (fun c x =>
        if isBlank c then ([], if x.1.isEmpty then x.2 else x.1 :: x.2) else (c :: x.1, x.2))
        ([], [])
      P x.1 x.2 := by
    induction s with
    | nil => exact start
    | cons c s ih =>
      rw [List.foldr_cons]
      generalize s.foldr _ _ = x at ih ⊢
      obtain ⟨first, words⟩ := x
      cases hc : isBlank c with
      | true => exact blank first words ih
      | false => exact letter c first words hc ih
  exact ⟨_, _, fold s, rfl⟩

/-- Only a word that is not empty is put before the others. -/
theorem eq_or_mem_of_isEmpty {first word : List Char} {words : List (List Char)}
    (h : word ∈ if first.isEmpty then words else first :: words) :
    word = first ∧ word ≠ [] ∨ word ∈ words := by
  split at h
  · exact .inr h
  · next hfirst =>
    obtain rfl | h := List.mem_cons.1 h
    · exact .inl ⟨rfl, fun hnil => hfirst (List.isEmpty_iff.2 hnil)⟩
    · exact .inr h

theorem blankSeparated_ne_nil {s word : List Char} (h : word ∈ blankSeparated s) : word ≠ [] := by
  obtain ⟨first, words, hwords, hs⟩ := blankSeparated_induction
    (P := fun _ words => ∀ word ∈ words, word ≠ []) (List.forall_mem_nil _)
    (fun _ _ ih word hword => (eq_or_mem_of_isEmpty hword).elim And.right (ih word))
    (fun _ _ _ _ ih => ih) s
  rw [hs] at h
  exact (eq_or_mem_of_isEmpty h).elim And.right (hwords word)

end Text

/-- No name in a sided argument is empty. -/
theorem ne_empty_of_readSided {argument name : String} {side : Side} {names : List String}
    (h : readSided argument = .ok (side, names)) (hname : name ∈ names) : name.toList ≠ [] := by
  unfold readSided at h
  split at h
  · cases h
  · next key text _ =>
    cases hside : Side.ofString? (String.ofList key) with
    | error e => rw [hside] at h; cases h
    | ok side =>
      rw [hside] at h
      simp only [bind, Except.bind] at h
      split at h
      · cases h
      · next words hwords =>
        cases h
        obtain ⟨word, hword, rfl⟩ := List.mem_map.1 hname
        rw [String.toList_ofList]
        exact Text.blankSeparated_ne_nil hword

namespace Verb

theorem mem_sidedNames {arguments names : List String} {argument name : String} {side : Side}
    (hargument : argument ∈ arguments) (h : readSided argument = .ok (side, names))
    (hname : name ∈ names) : name ∈ sidedNames arguments :=
  List.mem_flatMap.2 ⟨argument, hargument, by rw [h]; exact hname⟩

theorem mem_sidedSides {arguments names : List String} {argument : String} {side : Side}
    (hargument : argument ∈ arguments) (h : readSided argument = .ok (side, names)) :
    side ∈ sidedSides arguments :=
  List.mem_filterMap.2 ⟨argument, hargument, by rw [h]⟩

theorem namesOn_cons {argument : String} {arguments names : List String} {side other : Side}
    (h : readSided argument = .ok (other, names)) :
    namesOn side (argument :: arguments) =
      (if other = side then names else []) ++ namesOn side arguments := by
  rw [namesOn, List.flatMap_cons, h, ← namesOn]

theorem mem_linkNames {pairs : List String} {pair new old : String} (hpair : pair ∈ pairs)
    (h : readLink pair = .ok (new, old)) : new ∈ linkNames pairs ∧ old ∈ linkNames pairs :=
  ⟨List.mem_flatMap.2 ⟨pair, hpair, by rw [h]; exact List.mem_cons_self⟩,
    List.mem_flatMap.2 ⟨pair, hpair, by rw [h]; exact List.mem_cons_of_mem _ List.mem_cons_self⟩⟩

end Verb

/-! ## Scripts -/

/-- A registry has one handler of a name. -/
theorem Registry.eq_of_name {β : Type} (r : Registry β) {h h' : Handler β} (hmem : h ∈ r.handlers)
    (hmem' : h' ∈ r.handlers) (name : h.name = h'.name) : h = h' :=
  List.inj_on_of_nodup_map r.distinct hmem hmem' name

/-- The environment of a test in a run root. -/
def Environment.inside (runRoot : Path) (name : String) (workers : Nat) (start : Time)
    (sink : LogSink) : Environment where
  name
  root := runRoot.join ⟨name⟩
  lhs := (runRoot.join ⟨name⟩).join ⟨Side.lhs.name⟩
  rhs := (runRoot.join ⟨name⟩).join ⟨Side.rhs.name⟩
  start
  workers
  sink

theorem Environment.side_inside {runRoot : Path} {name : String} {workers : Nat} {start : Time}
    {sink : LogSink} (side : Side) :
    (inside runRoot name workers start sink).side side =
      (runRoot.join ⟨name⟩).join ⟨side.name⟩ := by
  unfold Environment.side
  cases side <;> rfl

namespace Script

/-- The commands of a script have handlers of the registry. -/
theorem handler_mem_of_commandsOf {β : Type} {registry : Registry β} {file : String}
    {lines : List LogicalLine} {commands : List (Command β)}
    (h : commandsOf registry file lines = .ok commands) :
    ∀ c ∈ commands, c.handler ∈ registry.handlers := by
  induction lines generalizing commands with
  | nil => cases h; nofun
  | cons line rest ih =>
    rw [commandsOf] at h
    cases hcommand : line.command? registry with
    | error fault => rw [hcommand] at h; cases h
    | ok c =>
      rw [hcommand] at h
      simp only at h
      cases hrest : commandsOf registry file rest with
      | error e => rw [hrest] at h; cases h
      | ok others =>
        rw [hrest] at h
        cases h
        intro c' hc'
        obtain rfl | hc' := List.mem_cons.1 hc'
        · unfold LogicalLine.command? at hcommand
          split at hcommand
          · cases hcommand
          · cases hcommand
          · split at hcommand
            · cases hcommand
            · next hlookup => cases hcommand; exact List.mem_of_find?_eq_some hlookup
        · exact ih hrest c' hc'

theorem handler_mem_of_parse {β : Type} {registry : Registry β} {file source : String}
    {commands : List (Command β)} (h : parse registry file source = .ok commands) :
    ∀ c ∈ commands, c.handler ∈ registry.handlers := by
  unfold parse at h
  simp only at h
  split at h
  · cases h
  · cases h
  · next hcommands _ => cases h; exact handler_mem_of_commandsOf hcommands

end Script

namespace Run

/-- The environment of the test in a file, once it is built. -/
def environment (r : Run) (file : Path) (start : Time) (sink : LogSink) : Environment :=
  .inside r.root (testName file) r.workers start sink

/-- The names in the commands are local once the arguments are expanded. -/
def LocalCommands (r : Run) (file : Path) (commands : List (Script.Command Verb)) : Prop :=
  ∀ c ∈ commands, ∀ start sink arguments,
    (r.environment file start sink).expandArguments c.handler.name c.arguments = .ok arguments →
    ∀ name ∈ Verb.namesIn c.handler.name arguments, IsLocal name

/-- The verb and the arguments of each command satisfy `P` once the arguments are expanded. -/
def Expanded (r : Run) (file : Path) (P : String → List String → Prop)
    (commands : List (Script.Command Verb)) : Prop :=
  ∀ c ∈ commands, ∀ start sink arguments,
    (r.environment file start sink).expandArguments c.handler.name c.arguments = .ok arguments →
    P c.handler.name arguments

/-- The script in a file has local names only. -/
def LocalScript (r : Run) (d : Disk) (file : Path) : Prop :=
  ∀ text commands, d.readText file = .ok text →
    Script.parse r.registry file.text text = .ok commands → r.LocalCommands file commands

end Run

/-! ## Arguments without placeholders -/

/-- A text without a dollar sign is expanded to itself. -/
theorem Script.expand_of_noDollar {value : List Char → List Char} {s : List Char} (h : '$' ∉ s) :
    expand value s = s := by
  induction s with
  | nil => rw [expand]
  | cons c rest ih =>
    have hc : c ≠ '$' := fun heq => h (heq ▸ List.mem_cons_self)
    rw [expand, if_neg hc, ih fun hmem => h (List.mem_cons_of_mem c hmem)]

theorem Script.expandString_of_noDollar {lookup : String → Option String} {argument : String}
    (h : '$' ∉ argument.toList) : expandString lookup argument = argument := by
  unfold expandString
  rw [expand_of_noDollar h, String.ofList_toList]

/-- Arguments can be expanded if none of them is empty then. -/
theorem Environment.expandArguments_eq_ok_iff {env : Environment} {verb : String}
    {arguments expanded : List String} :
    env.expandArguments verb arguments = .ok expanded ↔
      expanded = arguments.map (Script.expandString env.value?) ∧ ∀ a ∈ expanded, a ≠ "" := by
  unfold expandArguments
  induction arguments generalizing expanded with
  | nil =>
    refine ⟨fun h => ?_, ?_⟩
    · cases h
      exact ⟨rfl, nofun⟩
    · rintro ⟨rfl, -⟩
      rfl
  | cons argument rest ih =>
    rw [List.mapM_cons, List.map_cons, expandArgument]
    by_cases hempty : (Script.expandString env.value? argument).isEmpty = true
    · refine ⟨fun h => ?_, ?_⟩
      · simp only [if_pos hempty] at h
        cases h
      · rintro ⟨rfl, hne⟩
        exact absurd (String.isEmpty_iff.1 hempty) (hne _ List.mem_cons_self)
    · have hne : Script.expandString env.value? argument ≠ "" := fun h =>
        hempty (String.isEmpty_iff.2 h)
      simp only [if_neg hempty]
      cases hrest : rest.mapM (env.expandArgument verb) with
      | error e =>
        refine ⟨nofun, ?_⟩
        rintro ⟨rfl, hall⟩
        have hok := ih.2 ⟨rfl, fun a ha => hall a (List.mem_cons_of_mem _ ha)⟩
        rw [hrest] at hok
        cases hok
      | ok others =>
        obtain ⟨rfl, hall⟩ := ih.1 hrest
        refine ⟨fun h => ?_, ?_⟩
        · cases h
          exact ⟨rfl, List.forall_mem_cons.2 ⟨hne, hall⟩⟩
        · rintro ⟨rfl, -⟩
          rfl

theorem Environment.expandArguments_of_noDollar {env : Environment} {verb : String}
    {arguments expanded : List String} (h : ∀ argument ∈ arguments, '$' ∉ argument.toList)
    (hexpand : env.expandArguments verb arguments = .ok expanded) : expanded = arguments := by
  obtain ⟨rfl, -⟩ := expandArguments_eq_ok_iff.1 hexpand
  rw [List.map_congr_left fun a ha => Script.expandString_of_noDollar (h a ha), List.map_id']

/-- Arguments that are not empty and have no placeholders are expanded to themselves. -/
theorem Environment.expandArguments_eq_self (env : Environment) {verb : String}
    {arguments : List String}
    (h : ∀ argument ∈ arguments, argument ≠ "" ∧ '$' ∉ argument.toList) :
    env.expandArguments verb arguments = .ok arguments := by
  refine expandArguments_eq_ok_iff.2 ⟨?_, fun a ha => (h a ha).1⟩
  rw [List.map_congr_left fun a ha => Script.expandString_of_noDollar (h a ha).2, List.map_id']

/-- Commands without placeholders are as they are written. -/
theorem Run.expanded_of_noDollar {r : Run} {file : Path} {P : String → List String → Prop}
    {commands : List (Script.Command Verb)}
    (plain : ∀ c ∈ commands, ∀ argument ∈ c.arguments, '$' ∉ argument.toList)
    (written : ∀ c ∈ commands, P c.handler.name c.arguments) : r.Expanded file P commands := by
  intro c hc start sink arguments hexpand
  rw [Environment.expandArguments_of_noDollar (plain c hc) hexpand]
  exact written c hc

/-- Names that are local as they are written. -/
theorem Run.localCommands_of_noDollar {r : Run} {file : Path}
    {commands : List (Script.Command Verb)}
    (plain : ∀ c ∈ commands, ∀ argument ∈ c.arguments, '$' ∉ argument.toList)
    (names : ∀ c ∈ commands, ∀ name ∈ Verb.namesIn c.handler.name c.arguments, IsLocal name) :
    r.LocalCommands file commands :=
  expanded_of_noDollar (P := fun verb arguments => ∀ name ∈ Verb.namesIn verb arguments, IsLocal name)
    plain names

/-- A file in which a script with local names is written. -/
theorem Run.localScript_of_read {r : Run} {d : Disk} {file : Path} {text : String}
    {commands : List (Script.Command Verb)} (read : d.readText file = .ok text)
    (parse : Script.parse r.registry file.text text = .ok commands)
    (names : r.LocalCommands file commands) : r.LocalScript d file := by
  intro text' commands' read' parse'
  cases read.symm.trans read'
  cases parse.symm.trans parse'
  exact names

/-- The expansion of arguments depends on the paths and the name of a test only. -/
theorem Environment.expandArguments_congr {env₁ env₂ : Environment} (hname : env₁.name = env₂.name)
    (hroot : env₁.root = env₂.root) (hlhs : env₁.lhs = env₂.lhs) (hrhs : env₁.rhs = env₂.rhs) :
    env₁.expandArguments = env₂.expandArguments := by
  have hvalue : env₁.value? = env₂.value? := by
    funext key
    unfold Environment.value?
    rw [hname, hroot, hlhs, hrhs]
  funext verb arguments
  unfold Environment.expandArguments Environment.expandArgument
  rw [hvalue, hname]

end TwinTrees
