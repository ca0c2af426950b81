import TwinTrees.Script.Command
import TwinTrees.Verb.Standard

/-!
# Scripts below one another

A text that ends with a whole line does not change how the text below it is read, except that
every line of the lower text is further down. The reader of lines carries a logical line that still
continues, so this needs that the upper text ends without one; the lines of the lower text are
then read by a reader that differs from the one at the start of a script in the lines and bytes it
has read alone (`LineReader.readAll_below`). A fault of the upper text, an unfinished continuation
apart, is found before the lower text is looked at.
-/

namespace TwinTrees.Script

/-- The logical line, `lines` lines and `bytes` bytes further down. -/
def LogicalLine.below (lines bytes : Nat) (l : LogicalLine) : LogicalLine :=
  { l with line := l.line + lines, start := l.start + bytes, stop := l.stop + bytes }

/-- The reader, after `lines` more lines and `bytes` more bytes. -/
def LineReader.below (lines bytes : Nat) (r : LineReader) : LineReader :=
  { line := r.line + lines, offset := r.offset + bytes
    pending := r.pending.map (LogicalLine.below lines bytes) }

/-- The command, `lines` lines further down. -/
def Command.below {β : Type} (lines : Nat) (c : Command β) : Command β :=
  { c with line := c.line + lines }

/-- The error, `lines` lines and `bytes` bytes further down. -/
def ScriptError.below (lines bytes : Nat) (e : ScriptError) : ScriptError :=
  { e with line := e.line + lines, span := { e.span with offset := e.span.offset + bytes } }

/-! ## Physical lines -/

theorem physicalLines_cons_ne_nil (c : Char) (text : List Char) :
    physicalLines (c :: text) ≠ [] := by
  rw [physicalLines]
  split
  · exact List.cons_ne_nil _ _
  · split <;> exact List.cons_ne_nil _ _

/-- Nothing of what follows a newline belongs to the line before it. -/
theorem physicalLines_append {above : List Char} (whole : ∀ c ∈ above.getLast?, c = '\n')
    (lower : List Char) :
    physicalLines (above ++ lower) = physicalLines above ++ physicalLines lower := by
  induction above with
  | nil => rfl
  | cons c above ih =>
    cases above with
    | nil =>
      obtain rfl : c = '\n' := whole c rfl
      rfl
    | cons d rest =>
      specialize ih fun e he => whole e (by rwa [List.getLast?_cons_cons])
      rw [List.cons_append, physicalLines, physicalLines, ih]
      split
      · rfl
      · -- The line goes on, and its end is in the first line of the rest.
        obtain ⟨line, lines, hlines⟩ :=
          List.exists_cons_of_ne_nil (physicalLines_cons_ne_nil d rest)
        rw [hlines]
        rfl

/-- A text of whole lines has a line for each newline. -/
theorem length_physicalLines {text : List Char} (whole : ∀ c ∈ text.getLast?, c = '\n') :
    (physicalLines text).length = text.count '\n' := by
  induction text with
  | nil => rfl
  | cons c text ih =>
    cases text with
    | nil =>
      obtain rfl : c = '\n' := whole c rfl
      rfl
    | cons d rest =>
      specialize ih fun e he => whole e (by rwa [List.getLast?_cons_cons])
      rw [physicalLines]
      split
      · next hc => rw [List.length_cons, ih, hc, List.count_cons_self]
      · next hc =>
        obtain ⟨line, lines, hlines⟩ :=
          List.exists_cons_of_ne_nil (physicalLines_cons_ne_nil d rest)
        rw [hlines] at ih ⊢
        rw [List.count_cons_of_ne hc, ← ih]
        rfl

theorem flatten_physicalLines (text : List Char) : (physicalLines text).flatten = text := by
  induction text with
  | nil => rfl
  | cons c text ih =>
    rw [physicalLines]
    split
    · rw [List.flatten_cons, ih, List.singleton_append]
    · split
      · next hnil =>
        rw [hnil] at ih
        rw [← ih]
        rfl
      · next line lines hlines =>
        rw [hlines] at ih
        rw [← ih]
        rfl

/-! ## The reader of lines -/

namespace LineReader

variable (r : LineReader)

theorem readAll_cons (raw : List Char) (raws : List (List Char)) :
    r.readAll (raw :: raws) =
      ((r.read raw).2.toList ++ ((r.read raw).1.readAll raws).1, ((r.read raw).1.readAll raws).2) :=
  rfl

theorem readAll_append (upper lower : List (List Char)) :
    r.readAll (upper ++ lower) =
      ((r.readAll upper).1 ++ ((r.readAll upper).2.readAll lower).1,
        ((r.readAll upper).2.readAll lower).2) := by
  induction upper generalizing r with
  | nil => rfl
  | cons raw upper ih =>
    rw [List.cons_append, readAll_cons, readAll_cons, ih, List.append_assoc]

theorem read_line (raw : List Char) : (r.read raw).1.line = r.line + 1 := by
  grind [read]

theorem read_offset (raw : List Char) :
    (r.read raw).1.offset = r.offset + Text.byteLength raw := by
  grind [read]

theorem readAll_line (raws : List (List Char)) :
    (r.readAll raws).2.line = r.line + raws.length := by
  induction raws generalizing r with
  | nil => rfl
  | cons raw raws ih =>
    rw [readAll_cons, ih, read_line, List.length_cons]
    omega

theorem readAll_offset (raws : List (List Char)) :
    (r.readAll raws).2.offset = r.offset + Text.byteLength raws.flatten := by
  induction raws generalizing r with
  | nil => rfl
  | cons raw raws ih =>
    rw [readAll_cons, ih, read_offset, List.flatten_cons, Text.byteLength_append, Nat.add_assoc]

theorem extend_below (lines bytes : Nat) (raw : List Char) :
    (r.below lines bytes).extend raw = (r.extend raw).below lines bytes := by
  obtain ⟨line, offset, _ | pending⟩ := r <;>
    simp only [extend, below, LogicalLine.below, Option.map_none, Option.map_some] <;> grind

/-- A reader further down reads the same lines further down. -/
theorem read_below (lines bytes : Nat) (raw : List Char) :
    (r.below lines bytes).read raw =
      ((r.read raw).1.below lines bytes, (r.read raw).2.map (LogicalLine.below lines bytes)) := by
  have hnext : (r.below lines bytes).line + 1 = r.line + 1 + lines := Nat.add_right_comm ..
  have hoffset : (r.below lines bytes).offset + Text.byteLength raw =
      r.offset + Text.byteLength raw + bytes := Nat.add_right_comm ..
  simp only [read, extend_below, hnext, hoffset]
  split
  · rfl
  · split <;> rfl

theorem readAll_below (lines bytes : Nat) (raws : List (List Char)) :
    (r.below lines bytes).readAll raws =
      ((r.readAll raws).1.map (LogicalLine.below lines bytes),
        (r.readAll raws).2.below lines bytes) := by
  induction raws generalizing r with
  | nil => rfl
  | cons raw raws ih =>
    rw [readAll_cons, readAll_cons, read_below, ih, List.map_append]
    cases (r.read raw).2 <;> rfl

end LineReader

/-- The logical lines of two texts below one another: when the upper text leaves nothing to
continue, those of each of them. -/
theorem logicalLines_append {above : List Char} (whole : ∀ c ∈ above.getLast?, c = '\n')
    (closed : (logicalLines above).2 = none) (lower : List Char) :
    logicalLines (above ++ lower) =
      ((logicalLines above).1 ++ (logicalLines lower).1.map
          (LogicalLine.below (above.count '\n') (Text.byteLength above)),
        (logicalLines lower).2.map
          (LogicalLine.below (above.count '\n') (Text.byteLength above))) := by
  have hreader : (LineReader.start.readAll (physicalLines above)).2 =
      LineReader.start.below (above.count '\n') (Text.byteLength above) := by
    have hline := LineReader.start.readAll_line (physicalLines above)
    have hoffset := LineReader.start.readAll_offset (physicalLines above)
    rw [length_physicalLines whole] at hline
    rw [flatten_physicalLines] at hoffset
    calc (LineReader.start.readAll (physicalLines above)).2
      _ = ⟨_, _, (logicalLines above).2⟩ := rfl
      _ = _ := by rw [hline, hoffset, closed]; rfl
  unfold logicalLines
  rw [physicalLines_append whole, LineReader.readAll_append, hreader, LineReader.readAll_below]
  rfl

/-- The logical lines that a text completes stay when text is added below it. -/
theorem logicalLines_take {above : List Char} (whole : ∀ c ∈ above.getLast?, c = '\n')
    (lower : List Char) :
    ∃ more, (logicalLines (above ++ lower)).1 = (logicalLines above).1 ++ more := by
  unfold logicalLines
  rw [physicalLines_append whole, LineReader.readAll_append]
  exact ⟨_, rfl⟩

/-! ## Commands -/

section Commands

variable {β : Type} (registry : Registry β) (file : String)

theorem LogicalLine.command?_below (lines bytes : Nat) (l : LogicalLine) :
    (l.below lines bytes).command? registry = (l.command? registry).map (Command.below lines) := by
  unfold LogicalLine.command?
  rw [show (l.below lines bytes).text = l.text from rfl]
  split
  · rfl
  · rfl
  · split <;> rfl

theorem LogicalLine.error_below (lines bytes : Nat) (l : LogicalLine) (fault : LineFault) :
    (l.below lines bytes).error file fault = (l.error file fault).below lines bytes := by
  simp [LogicalLine.error, LogicalLine.span, LogicalLine.below, ScriptError.below,
    Nat.add_sub_add_right]

theorem commandsOf_below (lines bytes : Nat) (ls : List LogicalLine) :
    commandsOf registry file (ls.map (LogicalLine.below lines bytes)) =
      ((commandsOf registry file ls).mapError (ScriptError.below lines bytes)).map
        (List.map (Command.below lines)) := by
  induction ls with
  | nil => rfl
  | cons l ls ih =>
    rw [List.map_cons, commandsOf, commandsOf, LogicalLine.command?_below]
    cases l.command? registry with
    | error fault => exact congrArg Except.error (LogicalLine.error_below file lines bytes l fault)
    | ok command =>
      simp only [Except.map, ih]
      cases commandsOf registry file ls <;> rfl

theorem commandsOf_append {upper : List LogicalLine} {commands : List (Command β)}
    (h : commandsOf registry file upper = .ok commands) (lower : List LogicalLine) :
    commandsOf registry file (upper ++ lower) =
      (commandsOf registry file lower).map (commands ++ ·) := by
  induction upper generalizing commands with
  | nil =>
    obtain rfl : [] = commands := by simpa [commandsOf] using h
    rw [List.nil_append]
    cases commandsOf registry file lower <;> rfl
  | cons l upper ih =>
    rw [commandsOf] at h
    rw [List.cons_append, commandsOf]
    cases hl : l.command? registry with
    | error fault => simp [hl] at h
    | ok command =>
      cases hrest : commandsOf registry file upper with
      | error e => simp [hl, hrest, Except.map] at h
      | ok rest =>
        simp only [hl, hrest, Except.map, Except.ok.injEq] at h
        obtain rfl := h
        simp only [ih hrest]
        cases commandsOf registry file lower <;> rfl

theorem commandsOf_append_of_error {upper : List LogicalLine} {e : ScriptError}
    (h : commandsOf registry file upper = .error e) (lower : List LogicalLine) :
    commandsOf registry file (upper ++ lower) = .error e := by
  induction upper with
  | nil => simp [commandsOf] at h
  | cons l upper ih =>
    rw [commandsOf] at h
    rw [List.cons_append, commandsOf]
    cases hl : l.command? registry with
    | error fault => simpa [hl] using h
    | ok command =>
      cases hrest : commandsOf registry file upper with
      | error e' =>
        simp only [hl, hrest, Except.map, Except.error.injEq] at h
        obtain rfl := h
        simp only [ih hrest, Except.map]
      | ok rest => simp [hl, hrest, Except.map] at h

theorem parse_eq_ok {source : String} {commands : List (Command β)}
    (h : parse registry file source = .ok commands) :
    commandsOf registry file (logicalLines source.toList).1 = .ok commands ∧
      (logicalLines source.toList).2 = none := by
  cases hcommands : commandsOf registry file (logicalLines source.toList).1 with
  | error e => simp [parse, hcommands] at h
  | ok found => cases hunfinished : (logicalLines source.toList).2 <;> simp_all [parse]

theorem parse_eq_error {source : String} {e : ScriptError}
    (h : parse registry file source = .error e) (finished : e.fault ≠ .unfinishedLine) :
    commandsOf registry file (logicalLines source.toList).1 = .error e := by
  cases hcommands : commandsOf registry file (logicalLines source.toList).1 with
  | error e' => simpa [parse, hcommands] using h
  | ok found =>
    cases hunfinished : (logicalLines source.toList).2 with
    | none => simp [parse, hcommands, hunfinished] at h
    | some l =>
      simp only [parse, hcommands, hunfinished, Except.error.injEq] at h
      exact absurd (h ▸ rfl) finished

/-- Scripts below one another, the upper one made of whole lines. Where the upper one can be read,
the two together have its commands and then those of the lower one, further down by the lines of the
upper one; an error of the lower one is further down by its lines and bytes. Where the upper one
cannot be read, the two together have the same error, unless it is a continuation that ended with
the upper text and may go on in the lower one. -/
theorem parse_append (above lower : String)
    (whole : above = "" ∨ above.toList.getLast? = some '\n') :
    (∀ commands, parse registry file above = .ok commands →
      (∀ more, parse registry file lower = .ok more →
        parse registry file (above ++ lower) =
          .ok (commands ++ more.map (Command.below (above.toList.count '\n')))) ∧
      ∀ e, parse registry file lower = .error e →
        parse registry file (above ++ lower) =
          .error (e.below (above.toList.count '\n') (Text.byteLength above.toList))) ∧
    ∀ e, parse registry file above = .error e → e.fault ≠ .unfinishedLine →
      parse registry file (above ++ lower) = .error e := by
  have ends : ∀ c ∈ above.toList.getLast?, c = '\n' := by
    obtain rfl | hlast := whole
    · exact nofun
    · intro c hc
      rw [hlast] at hc
      exact (Option.some.inj hc).symm
  refine ⟨fun commands h => ?_, fun e h hfault => ?_⟩
  · obtain ⟨hcommands, hclosed⟩ := parse_eq_ok registry file h
    have hparse : parse registry file (above ++ lower) =
        ((parse registry file lower).mapError
            (ScriptError.below (above.toList.count '\n') (Text.byteLength above.toList))).map
          (commands ++ ·.map (Command.below (above.toList.count '\n'))) := by
      unfold parse
      rw [String.toList_append, logicalLines_append ends hclosed]
      simp only [commandsOf_append registry file hcommands, commandsOf_below]
      cases commandsOf registry file (logicalLines lower.toList).1 with
      | error e => rfl
      | ok ys =>
        cases (logicalLines lower.toList).2 with
        | none => rfl
        | some l => exact congrArg Except.error (LogicalLine.error_below file _ _ l .unfinishedLine)
    exact ⟨fun more hmore => by rw [hparse, hmore]; rfl, fun e he => by rw [hparse, he]; rfl⟩
  · obtain ⟨more, hmore⟩ := logicalLines_take ends lower.toList
    have hcommands := parse_eq_error registry file h hfault
    unfold parse
    rw [String.toList_append]
    simp only [hmore, commandsOf_append_of_error registry file hcommands]

end Commands

/-- A command that continues over a comment, with two characters at each line's end, above a command
and above a word that does not end; and an unknown verb above that command. -/
theorem parse_append_continued : ∃ commands more,
    parse Verb.standard "x.t" "sync \\\r\n# é\r\n a\r\n" = .ok commands ∧
    parse Verb.standard "x.t" ("sync \\\r\n# é\r\n a\r\n" ++ "\ntouch") = .ok (commands ++ more) ∧
    commands.map Command.line = [3] ∧ more.map Command.line = [5] ∧
    parse Verb.standard "x.t" ("sync \\\r\n# é\r\n a\r\n" ++ "\n'b") =
      .error ⟨"x.t", 5, ⟨19, 2⟩, .unfinishedWord ⟨0⟩⟩ ∧
    parse Verb.standard "x.t" ("boo\n" ++ "sync \\\r\n# é\r\n a\r\n") =
      .error ⟨"x.t", 1, ⟨0, 3⟩, .unknownVerb "boo"⟩ := by
  obtain ⟨commands, hcommands, hline⟩ : ∃ commands,
      parse Verb.standard "x.t" "sync \\\r\n# é\r\n a\r\n" = .ok commands ∧
        commands.map Command.line = [3] := ⟨_, rfl, rfl⟩
  obtain ⟨more, hmore, hnext⟩ : ∃ more, parse Verb.standard "x.t" "\ntouch" = .ok more ∧
      (more.map (Command.below 3)).map Command.line = [5] := ⟨_, rfl, rfl⟩
  have hword : parse Verb.standard "x.t" "\n'b" =
      .error ⟨"x.t", 2, ⟨1, 2⟩, .unfinishedWord ⟨0⟩⟩ := rfl
  have hverb : parse Verb.standard "x.t" "boo\n" =
      .error ⟨"x.t", 1, ⟨0, 3⟩, .unknownVerb "boo"⟩ := rfl
  have below := fun lower => (parse_append Verb.standard "x.t" _ lower (.inr rfl)).1 _ hcommands
  have upper :=
    (parse_append Verb.standard "x.t" "boo\n" "sync \\\r\n# é\r\n a\r\n" (.inr rfl)).2
  exact ⟨commands, more.map (Command.below 3), hcommands, (below _).1 _ hmore, hline, hnext,
    (below _).2 _ hword, upper _ hverb nofun⟩

end TwinTrees.Script
