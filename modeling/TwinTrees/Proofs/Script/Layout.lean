import TwinTrees.Proofs.Script.Concatenation
import TwinTrees.Proofs.Script.Rendering
import TwinTrees.Proofs.Text.Basic

/-!
# The layout of a script

A script is read by the lines of it that are not skipped, and of each of these only the content
counts. So two scripts with the same significant lines are read alike, apart from where the lines
stand (`parse_by_significant_lines`): blank lines, comments of whole lines, indentation, white space
at line ends, the way lines end and the last newline are layout (`Relaid`).

Where a command stands is found from the groups of significant lines: a group goes on as long as its
lines end in a backslash, and the line of a command is the number of the last line of its group. The
reader joins a group piece by piece, so the lemma about it (`LineReader.readAll_groups`) has a place
for what is joined so far.
-/

namespace TwinTrees

namespace Script

/-! ## Significant lines -/

/-- The contents of the lines of a text that are not skipped. -/
def significantLines (source : List Char) : List (List Char) :=
  ((physicalLines source).map content).filter (!isSkipped ·)

/-- The content of a line, with the number of the line. -/
structure NumberedLine where
  number : Nat
  text : List Char
  deriving DecidableEq, Repr

/-- The lines that are not skipped, where the first of all lines has the number `first`. -/
def numbered (first : Nat) : List (List Char) → List NumberedLine
  | [] => []
  | raw :: raws =>
    if isSkipped (content raw) then numbered (first + 1) raws
    else ⟨first, content raw⟩ :: numbered (first + 1) raws

/-- The lines of one command: those that continue, and the one that does not. -/
structure Group where
  continuing : List NumberedLine
  last : NumberedLine
  deriving DecidableEq, Repr

/-- The contents of the lines without the backslashes that continue them. -/
def heads (lines : List NumberedLine) : List Char := lines.flatMap (·.text.dropLast)

/-- The joined text of a group. -/
def Group.text (g : Group) : List Char := heads g.continuing ++ g.last.text

/-- Lines as groups, and the lines at the end that all continue. -/
def groups : List NumberedLine → List Group × List NumberedLine
  | [] => ([], [])
  | l :: rest =>
    if l.text.getLast? = some '\\' then
      match groups rest with
      | ([], unfinished) => ([], l :: unfinished)
      | (g :: gs, unfinished) => ({ g with continuing := l :: g.continuing } :: gs, unfinished)
    else (⟨[], l⟩ :: (groups rest).1, (groups rest).2)

/-- The groups of a text. -/
def groupsOf (source : List Char) : List Group × List NumberedLine :=
  groups (numbered 1 (physicalLines source))

theorem text_numbered (first : Nat) (raws : List (List Char)) :
    (numbered first raws).map NumberedLine.text = (raws.map content).filter (!isSkipped ·) := by
  induction raws generalizing first with
  | nil => rfl
  | cons raw raws ih =>
    rw [numbered, List.map_cons]
    split
    · next h => rw [ih, List.filter_cons_of_neg (by simp [h])]
    · next h => rw [List.map_cons, ih, List.filter_cons_of_pos (by simp [h])]

/-- Groups are made by the contents of the lines. -/
theorem groups_congr {lines lines' : List NumberedLine}
    (h : lines.map NumberedLine.text = lines'.map NumberedLine.text) :
    (groups lines).1.map Group.text = (groups lines').1.map Group.text ∧
      ((groups lines).2 = [] ↔ (groups lines').2 = []) := by
  induction lines generalizing lines' with
  | nil =>
    obtain rfl := List.map_eq_nil_iff.1 h.symm
    exact ⟨rfl, Iff.rfl⟩
  | cons l lines ih =>
    obtain ⟨l', lines', rfl⟩ : ∃ l' lines'', lines' = l' :: lines'' := by
      cases lines' with
      | nil => cases h
      | cons l' lines' => exact ⟨l', lines', rfl⟩
    obtain ⟨htext, hrest⟩ := List.cons.inj h
    obtain ⟨ihgroups, ihunfinished⟩ := ih hrest
    rw [groups, groups, ← htext]
    split
    · cases hg : groups lines with
      | mk gs unfinished =>
      cases hg' : groups lines' with
      | mk gs' unfinished' =>
      rw [hg, hg'] at ihgroups
      cases gs <;> cases gs' <;> simp_all [Group.text, heads]
    · exact ⟨by rw [List.map_cons, List.map_cons, ihgroups, Group.text, Group.text, htext],
        ihunfinished⟩

/-! ## The reader and the groups -/

/-- What a group says about its command: the text and the number of the last line. -/
def Group.shown (g : Group) : List Char × Nat := (g.text, g.last.number)

def LogicalLine.shown (l : LogicalLine) : List Char × Nat := (l.text, l.line)

/-- The text that the reader has joined for the logical line that still continues. -/
def LineReader.joined (r : LineReader) : List Char := (r.pending.map LogicalLine.text).getD []

/-- The reader completes one logical line for each group; what it had joined before stands at the
start of the first one. -/
theorem LineReader.readAll_groups (r : LineReader) (raws : List (List Char)) :
    (r.readAll raws).1.map LogicalLine.shown =
        ((groups (numbered (r.line + 1) raws)).1.map Group.shown).modifyHead
          (fun g => (r.joined ++ g.1, g.2)) ∧
      ((r.readAll raws).2.pending = none ↔ (groups (numbered (r.line + 1) raws)).2 = [] ∧
        ((groups (numbered (r.line + 1) raws)).1 = [] → r.pending = none)) := by
  induction raws generalizing r with
  | nil => exact ⟨rfl, by simp [readAll, numbered, groups]⟩
  | cons raw raws ih =>
    rw [readAll_cons]
    obtain ⟨ihlines, ihpending⟩ := ih (r.read raw).1
    rw [read_line] at ihlines ihpending
    rw [List.map_append, ihlines, ihpending, numbered]
    cases hskip : isSkipped (content raw) with
    | true => simp [read, hskip, joined]
    | false =>
      -- A line that continues goes to the front of the next group, or of the lines that are left
      -- at the end; another line is a group, after what the reader has joined.
      by_cases hback : (content raw).getLast? = some '\\'
      · cases hg : groups (numbered (r.line + 1 + 1) raws) with
        | mk gs unfinished =>
        cases gs <;> cases hp : r.pending <;>
          simp [read, hskip, hback, continued?, extend, hp, joined, groups, hg, Group.shown,
            Group.text, heads]
      · cases hg : groups (numbered (r.line + 1 + 1) raws) with
        | mk gs unfinished =>
        cases gs <;> cases hp : r.pending <;>
          simp [read, hskip, hback, continued?, extend, hp, joined, groups, hg, Group.shown,
            Group.text, heads, LogicalLine.shown]

/-- The logical lines of a text are its groups. -/
theorem shown_logicalLines (source : List Char) :
    (logicalLines source).1.map LogicalLine.shown = (groupsOf source).1.map Group.shown ∧
      ((logicalLines source).2 = none ↔ (groupsOf source).2 = []) := by
  obtain ⟨hlines, hpending⟩ := LineReader.start.readAll_groups (physicalLines source)
  refine ⟨hlines.trans ?_, hpending.trans (and_iff_left fun _ => rfl)⟩
  have hid : (fun g : List Char × Nat => (LineReader.start.joined ++ g.1, g.2)) = id := rfl
  rw [hid, List.modifyHead_id]
  rfl

theorem text_logicalLines (source : List Char) :
    (logicalLines source).1.map LogicalLine.text = (groupsOf source).1.map Group.text := by
  have h := congrArg (List.map Prod.fst) (shown_logicalLines source).1
  rwa [List.map_map, List.map_map] at h

/-! ## What is read from a script -/

/-- What a script says, wherever its lines stand: the handlers and words of its commands, or what is
wrong with it. -/
def reading {β : Type} (result : Except ScriptError (List (Command β))) :
    Except LineFault (List (Handler β × List String)) :=
  (result.mapError ScriptError.fault).map (List.map fun c => (c.handler, c.words))

section Reading

variable {β : Type} (registry : Registry β)

theorem reading_commandsOf_cons (file : String) (l : LogicalLine) (ls : List LogicalLine) :
    reading (commandsOf registry file (l :: ls)) =
      match l.command? registry with
      | .error fault => .error fault
      | .ok c => (reading (commandsOf registry file ls)).map ((c.handler, c.words) :: ·) := by
  rw [commandsOf]
  cases l.command? registry with
  | error fault => rfl
  | ok c => cases commandsOf registry file ls <;> rfl

theorem LogicalLine.command?_congr {l l' : LogicalLine} (h : l.text = l'.text) :
    (l.command? registry).map (fun c => (c.handler, c.words)) =
      (l'.command? registry).map fun c => (c.handler, c.words) := by
  unfold command?
  rw [h]
  split
  · rfl
  · rfl
  · split <;> rfl

/-- What logical lines say is in their texts. -/
theorem reading_commandsOf_congr (file file' : String) {ls ls' : List LogicalLine}
    (h : ls.map LogicalLine.text = ls'.map LogicalLine.text) :
    reading (commandsOf registry file ls) = reading (commandsOf registry file' ls') := by
  induction ls generalizing ls' with
  | nil =>
    obtain rfl := List.map_eq_nil_iff.1 h.symm
    rfl
  | cons l ls ih =>
    obtain ⟨l', ls', rfl⟩ : ∃ l' ls'', ls' = l' :: ls'' := by
      cases ls' with
      | nil => cases h
      | cons l' ls' => exact ⟨l', ls', rfl⟩
    obtain ⟨htext, hrest⟩ := List.cons.inj h
    have hcommand := LogicalLine.command?_congr registry htext
    rw [reading_commandsOf_cons, reading_commandsOf_cons, ih hrest]
    cases hl : l.command? registry with
    | error fault =>
      cases hl' : l'.command? registry with
      | error fault' =>
        simp only [hl, hl', Except.map, Except.error.injEq] at hcommand
        rw [hcommand]
      | ok c' => simp [hl, hl', Except.map] at hcommand
    | ok c =>
      cases hl' : l'.command? registry with
      | error fault' => simp [hl, hl', Except.map] at hcommand
      | ok c' =>
        simp only [hl, hl', Except.map, Except.ok.injEq] at hcommand
        simp only [hcommand]

theorem reading_parse (file source : String) :
    reading (parse registry file source) =
      (reading (commandsOf registry file (logicalLines source.toList).1)).bind fun said =>
        if (logicalLines source.toList).2 = none then .ok said else .error .unfinishedLine := by
  unfold parse
  simp only
  cases commandsOf registry file (logicalLines source.toList).1 with
  | error e => rfl
  | ok commands => cases (logicalLines source.toList).2 <;> rfl

/-- Scripts with the same significant lines are read alike. -/
theorem reading_congr (file file' : String) {a b : String}
    (h : significantLines a.toList = significantLines b.toList) :
    reading (parse registry file a) = reading (parse registry file' b) := by
  have hnumbered : (numbered 1 (physicalLines a.toList)).map NumberedLine.text =
      (numbered 1 (physicalLines b.toList)).map NumberedLine.text := by
    rw [text_numbered, text_numbered]
    exact h
  obtain ⟨htexts, hunfinished⟩ := groups_congr hnumbered
  have hcommands := reading_commandsOf_congr registry file file'
    ((text_logicalLines a.toList).trans (htexts.trans (text_logicalLines b.toList).symm))
  have hpending : (logicalLines a.toList).2 = none ↔ (logicalLines b.toList).2 = none :=
    (shown_logicalLines a.toList).2.trans (hunfinished.trans (shown_logicalLines b.toList).2.symm)
  rw [reading_parse, reading_parse, hcommands]
  simp only [hpending]

/-- The commands of a script come from its logical lines, one from each. -/
theorem forall₂_of_commandsOf {file : String} {ls : List LogicalLine} {commands : List (Command β)}
    (h : commandsOf registry file ls = .ok commands) :
    List.Forall₂ (fun c l => LogicalLine.command? registry l = .ok c) commands ls := by
  induction ls generalizing commands with
  | nil =>
    obtain rfl : [] = commands := by simpa [commandsOf] using h
    exact .nil
  | cons l ls ih =>
    rw [commandsOf] at h
    cases hl : l.command? registry with
    | error fault => simp [hl] at h
    | ok c =>
      cases hrest : commandsOf registry file ls with
      | error e => simp [hl, hrest, Except.map] at h
      | ok rest =>
        simp only [hl, hrest, Except.map, Except.ok.injEq] at h
        exact h ▸ .cons hl (ih hrest)

theorem LogicalLine.of_command?_eq_ok {l : LogicalLine} {c : Command β}
    (h : l.command? registry = .ok c) :
    c.line = l.line ∧ splitWords l.text = .ok (c.words.map String.toList) := by
  unfold command? at h
  split at h
  · cases h
  · cases h
  · next verb arguments hwords =>
    split at h
    · cases h
    · cases h
      refine ⟨rfl, hwords.trans ?_⟩
      simp [Command.words, Function.comp_def]

end Reading

/-! ## Changes of the layout -/

/-- The text with a carriage return before each newline. -/
def withReturns (source : List Char) : List Char :=
  source.flatMap fun c => if c = '\n' then ['\r', '\n'] else [c]

/-- The second text is the first one with another layout. -/
inductive Relaid : List Char → List Char → Prop
  /-- A line more that is blank or a comment, anywhere in the text. -/
  | skipped {above line below : List Char} (whole : ∀ c ∈ above.getLast?, c = '\n')
    (single : '\n' ∉ line) (skips : isSkipped (content line) = true) :
    Relaid (above ++ below) (above ++ (line ++ '\n' :: below))
  /-- More white space at the start and at the end of a line. -/
  | spaced {above lead line trail below : List Char} (whole : ∀ c ∈ above.getLast?, c = '\n')
    (single : '\n' ∉ lead ++ (line ++ trail)) (hlead : ∀ c ∈ lead, Text.isBlank c = true)
    (htrail : ∀ c ∈ trail, Text.isBlank c = true) (ends : ∀ c ∈ below.head?, c = '\n') :
    Relaid (above ++ (line ++ below)) (above ++ (lead ++ (line ++ trail) ++ below))
  /-- Lines that end in a carriage return and a newline. -/
  | returns (source : List Char) : Relaid source (withReturns source)
  /-- A newline more at the end of the text. -/
  | ended (source : List Char) : Relaid source (source ++ ['\n'])

/-- A text is built from its last line on: each line above it ends in a newline. -/
theorem lines_induction {motive : List Char → Prop} (last : ∀ line, '\n' ∉ line → motive line)
    (more : ∀ line below, '\n' ∉ line → motive below → motive (line ++ '\n' :: below))
    (source : List Char) : motive source := by
  -- The induction goes over the characters, with the part of the line that is read so far.
  have go : ∀ source read, '\n' ∉ read → motive (read ++ source) := by
    intro source
    induction source with
    | nil =>
      intro read hread
      rw [List.append_nil]
      exact last read hread
    | cons c source ih =>
      intro read hread
      by_cases hc : c = '\n'
      · rw [hc]
        exact more read source hread (ih [] List.not_mem_nil)
      · rw [List.append_cons]
        refine ih (read ++ [c]) fun hmem => ?_
        rcases List.mem_append.1 hmem with hmem | hmem
        · exact hread hmem
        · exact hc (List.mem_singleton.1 hmem).symm
  exact go source [] List.not_mem_nil

theorem significantLines_append {above : List Char} (whole : ∀ c ∈ above.getLast?, c = '\n')
    (below : List Char) :
    significantLines (above ++ below) = significantLines above ++ significantLines below := by
  unfold significantLines
  rw [physicalLines_append whole, List.map_append, List.filter_append]

theorem content_append_blank {lead line trail : List Char}
    (hlead : ∀ c ∈ lead, Text.isBlank c = true) (htrail : ∀ c ∈ trail, Text.isBlank c = true) :
    content (lead ++ (line ++ trail)) = content line :=
  Text.trim_append hlead htrail

/-- The first line of a text, with the newline that ends it. -/
theorem physicalLines_line {line below : List Char} (single : '\n' ∉ line)
    (ends : ∀ c ∈ below.head?, c = '\n') (hne : line ++ below ≠ []) :
    physicalLines (line ++ below) = (line ++ below.take 1) :: physicalLines below.tail := by
  cases below with
  | nil =>
    rw [List.append_nil] at hne
    rw [List.append_nil, physicalLines_of_noNewline single hne, List.take_nil, List.append_nil]
    rfl
  | cons c below =>
    obtain rfl : c = '\n' := ends c rfl
    exact physicalLines_append_newline single below

theorem isBlank_of_mem_take {below : List Char} (ends : ∀ c ∈ below.head?, c = '\n') :
    ∀ c ∈ below.take 1, Text.isBlank c = true := by
  intro c hc
  cases below with
  | nil => simp at hc
  | cons d below =>
    obtain rfl : d = '\n' := ends d rfl
    obtain rfl : c = '\n' := by simpa using hc
    decide

/-- The line end is white space. -/
theorem significantLines_line {line below : List Char} (single : '\n' ∉ line)
    (ends : ∀ c ∈ below.head?, c = '\n') :
    significantLines (line ++ below) =
      [content line].filter (!isSkipped ·) ++ significantLines below.tail := by
  by_cases hne : line ++ below = []
  · obtain ⟨rfl, rfl⟩ := List.append_eq_nil_iff.1 hne
    rfl
  · have hcontent : content (line ++ below.take 1) = content line :=
      content_append_blank (List.forall_mem_nil _) (isBlank_of_mem_take ends)
    unfold significantLines
    rw [physicalLines_line single ends hne, List.map_cons, hcontent]
    exact List.filter_append [content line] _

theorem withReturns_of_noNewline {line : List Char} (single : '\n' ∉ line) :
    withReturns line = line := by
  induction line with
  | nil => rfl
  | cons c line ih =>
    have hc : c ≠ '\n' := fun h => single (h ▸ List.mem_cons_self)
    rw [withReturns, List.flatMap_cons, if_neg hc]
    exact congrArg (c :: ·) (ih fun h => single (List.mem_cons_of_mem _ h))

theorem withReturns_append_newline {line : List Char} (single : '\n' ∉ line) (below : List Char) :
    withReturns (line ++ '\n' :: below) = (line ++ ['\r']) ++ '\n' :: withReturns below := by
  have hline := withReturns_of_noNewline single
  unfold withReturns at hline ⊢
  rw [List.flatMap_append, hline, List.flatMap_cons, if_pos rfl, List.append_assoc]
  rfl

theorem significantLines_withReturns (source : List Char) :
    significantLines (withReturns source) = significantLines source := by
  induction source using lines_induction with
  | last line single => rw [withReturns_of_noNewline single]
  | more line below single ih =>
    have hreturn : ∀ c ∈ ['\r'], Text.isBlank c = true :=
      List.forall_mem_singleton.2 (by decide)
    have single' : '\n' ∉ line ++ ['\r'] := by simp [single]
    have hcontent : content (line ++ ['\r']) = content line :=
      content_append_blank (List.forall_mem_nil _) hreturn
    rw [withReturns_append_newline single, significantLines_line single' (by simp),
      significantLines_line single (by simp), hcontent, List.tail_cons, List.tail_cons, ih]

theorem significantLines_append_newline (source : List Char) :
    significantLines (source ++ ['\n']) = significantLines source := by
  induction source using lines_induction with
  | last line single =>
    rw [significantLines_line single (by simp), ← List.append_nil line,
      significantLines_line single (by simp), List.append_nil]
    rfl
  | more line below single ih =>
    rw [List.append_assoc, List.cons_append, significantLines_line single (by simp),
      significantLines_line single (by simp), List.tail_cons, List.tail_cons, ih]

/-- The layout does not change the significant lines. -/
theorem Relaid.significantLines_eq {a b : List Char} (h : Relaid a b) :
    significantLines a = significantLines b := by
  cases h with
  | skipped whole single skips =>
    rw [significantLines_append whole, significantLines_append whole,
      significantLines_line single (by simp)]
    simp [skips]
  | spaced whole single hlead htrail ends =>
    have hline := fun h => single (List.mem_append_right _ (List.mem_append_left _ h))
    rw [significantLines_append whole, significantLines_append whole,
      significantLines_line hline ends, significantLines_line single ends,
      content_append_blank hlead htrail]
  | returns => exact (significantLines_withReturns a).symm
  | ended => exact (significantLines_append_newline a).symm

/-- A script is read by its significant lines: scripts that have the same ones, and so scripts that
differ in layout alone, are the same commands or have the same fault. Each command of a script comes
from the text of a group of lines, and its line is that of the last line of the group. -/
theorem parse_by_significant_lines {β : Type} (registry : Registry β) (file file' a b : String) :
    (significantLines a.toList = significantLines b.toList →
      reading (parse registry file a) = reading (parse registry file' b)) ∧
    (Relaid a.toList b.toList →
      reading (parse registry file a) = reading (parse registry file' b)) ∧
    ∀ commands, parse registry file a = .ok commands →
      (groupsOf a.toList).2 = [] ∧
      List.Forall₂ (fun c g => c.line = g.last.number ∧
        splitWords g.text = .ok (c.words.map String.toList)) commands (groupsOf a.toList).1 := by
  refine ⟨reading_congr registry file file',
    fun h => reading_congr registry file file' h.significantLines_eq, fun commands h => ?_⟩
  obtain ⟨hcommands, hfinished⟩ := parse_eq_ok registry file h
  obtain ⟨hshown, hunfinished⟩ := shown_logicalLines a.toList
  refine ⟨hunfinished.1 hfinished, ?_⟩
  -- A command is known by what its logical line shows, and so by its group.
  have hlines : List.Forall₂ (fun (c : Command β) shown =>
      c.line = Prod.snd shown ∧ splitWords (Prod.fst shown) = .ok (c.words.map String.toList))
      commands ((groupsOf a.toList).1.map Group.shown) := by
    rw [← hshown, List.forall₂_map_right_iff]
    exact (forall₂_of_commandsOf registry hcommands).imp fun c l hl =>
      LogicalLine.of_command?_eq_ok registry hl
  exact List.forall₂_map_right_iff.1 hlines

/-- Two commands, and the same commands spread out: after a comment, continued over a blank line and
a comment, indented, with two characters at each line's end and none at the end of the script. -/
theorem parse_by_significant_lines_spread :
    let a := "mkfile a \\\n b\nsync\n"
    let b := "\u2003# top\r\n mkfile a \\\r\n\r\n  # and\r\n\t b  \r\nsync"
    significantLines a.toList = significantLines b.toList ∧
      Relaid b.toList (b ++ "\n").toList ∧
      reading (parse Verb.standard "a.t" a) = reading (parse Verb.standard "b.t" b) ∧
      reading (parse Verb.standard "b.t" b) = reading (parse Verb.standard "b.t" (b ++ "\n")) ∧
      ∃ commands, parse Verb.standard "b.t" b = .ok commands ∧
        List.Forall₂ (fun c g => c.line = g.last.number ∧
          splitWords g.text = .ok (c.words.map String.toList)) commands (groupsOf b.toList).1 ∧
        commands.map Command.line = [5, 6] := by
  intro a b
  have hlines : significantLines a.toList = significantLines b.toList := by decide
  have hended : Relaid b.toList (b ++ "\n").toList := by
    rw [String.toList_append]
    exact .ended _
  obtain ⟨commands, hcommands⟩ : ∃ commands, parse Verb.standard "b.t" b = .ok commands := by
    unfold b
    exact ⟨_, rfl⟩
  have hnumbers : commands.map Command.line = [5, 6] := by
    have h : (parse Verb.standard "b.t" b).toOption.map (List.map Command.line) = some [5, 6] := by
      unfold b
      rfl
    rw [hcommands] at h
    exact Option.some.inj h
  exact ⟨hlines, hended, (parse_by_significant_lines Verb.standard "a.t" "b.t" a b).1 hlines,
    (parse_by_significant_lines Verb.standard "b.t" "b.t" b _).2.1 hended, commands, hcommands,
    ((parse_by_significant_lines Verb.standard "b.t" "b.t" b b).2.2 commands hcommands).2, hnumbers⟩

end Script

end TwinTrees
