import TwinTrees.Proofs.Verb.Names
import TwinTrees.Script.Command

/-!
# Words that read back

Any words without newlines can be written in a script: each word in double quotes, with a backslash
before every double quote and every backslash, the words of a command on one line with spaces
between them, and one line for each command. Read as a script, these lines are the commands again
(`parse_rendered`). A line so written begins and ends with a quote, so it is not trimmed, skipped or
continued.
-/

namespace TwinTrees.Script

/-- A character as it is written between double quotes. -/
def quotedChar (c : Char) : List Char := if c = '"' ∨ c = '\\' then ['\\', c] else [c]

/-- A word in double quotes. -/
def quotedWord (word : List Char) : List Char := '"' :: (word.flatMap quotedChar ++ ['"'])

/-- The words of a command on one line. -/
def renderedLine (words : List String) : List Char :=
  [' '].intercalate (words.map fun word => quotedWord word.toList)

/-- Commands one below the other, without a newline at the end. -/
def rendered (commands : List (List String)) : List Char :=
  ['\n'].intercalate (commands.map renderedLine)

theorem renderedLine_singleton (word : String) : renderedLine [word] = quotedWord word.toList :=
  List.intercalate_singleton

theorem renderedLine_cons_cons (word next : String) (rest : List String) :
    renderedLine (word :: next :: rest) =
      quotedWord word.toList ++ ([' '] ++ renderedLine (next :: rest)) := by
  rw [renderedLine, List.map_cons, List.map_cons, List.intercalate_cons_cons, List.append_assoc]
  rfl

theorem rendered_cons_cons (words next : List String) (rest : List (List String)) :
    rendered (words :: next :: rest) = renderedLine words ++ '\n' :: rendered (next :: rest) := by
  rw [rendered, List.map_cons, List.map_cons, List.intercalate_cons_cons, List.append_assoc]
  rfl

/-! ## The words of a line -/

namespace WordScan

variable {s : WordScan}

theorem run_quotedChars (word : List Char) (h : s.mode = .doubleQuoted) :
    ∃ offset, s.run (word.flatMap quotedChar) =
      ⟨.doubleQuoted, offset, word.reverse ++ s.current, s.finished⟩ := by
  induction word generalizing s with
  | nil => exact ⟨s.offset, by rw [← h]; rfl⟩
  | cons c word ih =>
    have hchar : ∃ offset, s.run (quotedChar c) =
        ⟨.doubleQuoted, offset, c :: s.current, s.finished⟩ := by
      unfold quotedChar
      split
      · exact ⟨_, by simp [run, step, react, push, h]; rfl⟩
      · next hplain =>
        rw [not_or] at hplain
        exact ⟨_, by simp [run, step, react, push, h, hplain.1, hplain.2]; rfl⟩
    obtain ⟨offset, hchar⟩ := hchar
    rw [List.flatMap_cons, run_append, hchar]
    obtain ⟨offset', hrest⟩ := ih (s := ⟨.doubleQuoted, offset, c :: s.current, s.finished⟩) rfl
    exact ⟨offset', by rw [hrest, List.reverse_cons, List.append_assoc]; rfl⟩

/-- A word in quotes, from between two words on. -/
theorem run_quotedWord (word : List Char) (h : s.mode = .between) (empty : s.current = []) :
    ∃ offset, s.run (quotedWord word) = ⟨.inWord, offset, word.reverse, s.finished⟩ := by
  have hopen : s.run ['"'] = ⟨.doubleQuoted, s.offset + '"'.utf8Size, [], s.finished⟩ := by
    simp [run, step, react, openPiece, isSeparator, h, empty]
  obtain ⟨offset, hchars⟩ := run_quotedChars (s := s.run ['"']) word (by rw [hopen])
  refine ⟨offset + '"'.utf8Size, ?_⟩
  rw [quotedWord, ← List.singleton_append, run_append, run_append, hchars, hopen, List.append_nil]
  simp [run, step, react]

theorem finish_renderedLine {words : List String} (hne : words ≠ []) (h : s.mode = .between)
    (empty : s.current = []) :
    (s.run (renderedLine words)).finish = .ok (s.finished.reverse ++ words.map String.toList) := by
  induction words generalizing s with
  | nil => exact absurd rfl hne
  | cons word rest ih =>
    obtain ⟨offset, hword⟩ := run_quotedWord word.toList h empty
    cases rest with
    | nil =>
      rw [renderedLine_singleton, hword]
      simp [finish]
    | cons next rest =>
      rw [renderedLine_cons_cons, run_append, hword, run_append]
      have hblank : (⟨.inWord, offset, word.toList.reverse, s.finished⟩ : WordScan).run [' '] =
          ⟨.between, offset + ' '.utf8Size, [], word.toList :: s.finished⟩ := by
        simp [run, step, react, isSeparator, finishWord]
      rw [hblank]
      refine (ih (List.cons_ne_nil _ _) rfl rfl).trans ?_
      simp

end WordScan

theorem splitWords_renderedLine {words : List String} (hne : words ≠ []) :
    splitWords (renderedLine words) = .ok (words.map String.toList) :=
  WordScan.finish_renderedLine hne rfl rfl

/-! ## The lines of a script -/

/-- A line that begins and ends with a double quote, and has no newline. -/
structure Framed (line : List Char) : Prop where
  quotes : ∃ inner, line = '"' :: (inner ++ ['"'])
  noNewline : '\n' ∉ line

theorem framed_quotedWord {word : String} (h : '\n' ∉ word.toList) :
    Framed (quotedWord word.toList) := by
  refine ⟨⟨_, rfl⟩, fun hmem => ?_⟩
  have hchars : '\n' ∉ word.toList.flatMap quotedChar := by
    intro hmem
    obtain ⟨c, hc, hin⟩ := List.mem_flatMap.1 hmem
    unfold quotedChar at hin
    split at hin
    · simp only [List.mem_cons, List.not_mem_nil, or_false] at hin
      obtain hin | rfl := hin
      · cases hin
      · exact h hc
    · obtain rfl := List.mem_singleton.1 hin
      exact h hc
  simp [quotedWord, hchars] at hmem

theorem framed_renderedLine {words : List String} (hne : words ≠ [])
    (h : ∀ word ∈ words, '\n' ∉ word.toList) : Framed (renderedLine words) := by
  induction words with
  | nil => exact absurd rfl hne
  | cons word rest ih =>
    have hword := framed_quotedWord (h word List.mem_cons_self)
    cases rest with
    | nil => rwa [renderedLine_singleton]
    | cons next rest =>
      have hrest := ih (List.cons_ne_nil _ _) fun w hw => h w (List.mem_cons_of_mem _ hw)
      obtain ⟨inner, hinner⟩ := hword.quotes
      obtain ⟨inner', hinner'⟩ := hrest.quotes
      rw [renderedLine_cons_cons]
      refine ⟨⟨inner ++ ['"', ' ', '"'] ++ inner', by rw [hinner, hinner']; simp⟩, fun hmem => ?_⟩
      obtain hmem | hmem := List.mem_append.1 hmem
      · exact hword.noNewline hmem
      · obtain hmem | hmem := List.mem_append.1 hmem
        · simp at hmem
        · exact hrest.noNewline hmem

theorem physicalLines_append_newline {line : List Char} (h : '\n' ∉ line) (rest : List Char) :
    physicalLines (line ++ '\n' :: rest) = (line ++ ['\n']) :: physicalLines rest := by
  induction line with
  | nil => rw [List.nil_append, physicalLines, if_pos rfl]; rfl
  | cons c line ih =>
    have hc : c ≠ '\n' := fun heq => h (heq ▸ List.mem_cons_self)
    rw [List.cons_append, physicalLines, if_neg hc, ih fun hmem => h (List.mem_cons_of_mem _ hmem)]
    rfl

theorem physicalLines_of_noNewline {line : List Char} (h : '\n' ∉ line) (hne : line ≠ []) :
    physicalLines line = [line] := by
  induction line with
  | nil => exact absurd rfl hne
  | cons c line ih =>
    have hc : c ≠ '\n' := fun heq => h (heq ▸ List.mem_cons_self)
    rw [physicalLines, if_neg hc]
    cases line with
    | nil => rfl
    | cons c' line => rw [ih (fun hmem => h (List.mem_cons_of_mem _ hmem)) (List.cons_ne_nil _ _)]

namespace Framed

variable {line : List Char} (h : Framed line)
include h

theorem ne_nil : line ≠ [] := by
  obtain ⟨inner, rfl⟩ := h.quotes
  exact List.cons_ne_nil _ _

theorem content_eq {ending : List Char} (hend : ∀ c ∈ ending, Text.isBlank c = true) :
    content (line ++ ending) = line := by
  obtain ⟨inner, rfl⟩ := h.quotes
  have hquote : Text.isBlank '"' = false := by decide
  have hstart : ('"' :: (inner ++ ['"']) ++ ending).dropWhile Text.isBlank =
      '"' :: (inner ++ ['"']) ++ ending := by
    rw [List.cons_append, List.dropWhile_cons, hquote]
    rfl
  have hreverse : ('"' :: (inner ++ ['"']) ++ ending).reverse =
      ending.reverse ++ '"' :: (inner.reverse ++ ['"']) := by simp
  have hdrop : (ending.reverse ++ '"' :: (inner.reverse ++ ['"'])).dropWhile Text.isBlank =
      '"' :: (inner.reverse ++ ['"']) := by
    rw [List.dropWhile_append_of_pos fun c hc => hend c (List.mem_reverse.1 hc),
      List.dropWhile_cons, hquote]
    rfl
  unfold content Text.trim Text.dropEndWhile
  rw [hstart, hreverse, hdrop]
  simp

theorem isSkipped_eq : isSkipped line = false := by
  obtain ⟨inner, rfl⟩ := h.quotes
  rfl

theorem continued?_eq : continued? line = none := by
  obtain ⟨inner, rfl⟩ := h.quotes
  unfold continued?
  rw [← List.cons_append, List.getLast?_concat, if_neg (by decide)]

end Framed

/-- Reading physical lines of which each is a logical line. -/
theorem LineReader.readAll_framed {raws : List (List Char)} (h : ∀ raw ∈ raws, Framed (content raw))
    (r : LineReader) (ready : r.pending = none) :
    (r.readAll raws).1.map LogicalLine.text = raws.map content ∧
      (r.readAll raws).1.map LogicalLine.line = List.range' (r.line + 1) raws.length ∧
      (r.readAll raws).2.pending = none := by
  induction raws generalizing r with
  | nil => exact ⟨rfl, rfl, ready⟩
  | cons raw raws ih =>
    have framed := h raw List.mem_cons_self
    obtain ⟨htext, hline, hpending⟩ := ih (fun raw' hraw => h raw' (List.mem_cons_of_mem _ hraw))
      ⟨r.line + 1, r.offset + Text.byteLength raw, none⟩ rfl
    have hread : r.read raw = (⟨r.line + 1, r.offset + Text.byteLength raw, none⟩,
        some ⟨content raw, r.line + 1, r.offset,
          r.offset + Text.byteLength (withoutLineEnd raw)⟩) := by
      simp [read, framed.isSkipped_eq, framed.continued?_eq, extend, ready]
    simp only [readAll, hread]
    exact ⟨by simp [htext], by simp [hline, List.range'_succ], hpending⟩

/-- The physical lines of rendered commands, with or without a newline at the end. -/
theorem content_physicalLines {commands : List (List String)} {ending : List Char}
    (hne : commands ≠ []) (framed : ∀ words ∈ commands, Framed (renderedLine words))
    (hend : ending = [] ∨ ending = ['\n']) :
    (physicalLines (rendered commands ++ ending)).map content = commands.map renderedLine := by
  have hnewline : ∀ c ∈ ['\n'], Text.isBlank c = true := by
    intro c hc
    rw [List.mem_singleton.1 hc]
    decide
  induction commands with
  | nil => exact absurd rfl hne
  | cons words rest ih =>
    have hwords := framed words List.mem_cons_self
    cases rest with
    | nil =>
      rw [rendered, List.map_singleton, List.intercalate_singleton]
      obtain rfl | rfl := hend
      · rw [List.append_nil, physicalLines_of_noNewline hwords.noNewline hwords.ne_nil,
          List.map_singleton]
        have hnone : ∀ c ∈ ([] : List Char), Text.isBlank c = true := nofun
        have hcontent := hwords.content_eq hnone
        rw [List.append_nil] at hcontent
        rw [hcontent]
      · rw [physicalLines_append_newline hwords.noNewline, physicalLines, List.map_singleton,
          hwords.content_eq hnewline]
    | cons next rest =>
      rw [rendered_cons_cons, List.append_assoc, List.cons_append,
        physicalLines_append_newline hwords.noNewline, List.map_cons, List.map_cons,
        hwords.content_eq hnewline,
        ih (List.cons_ne_nil _ _) fun w hw => framed w (List.mem_cons_of_mem _ hw)]

/-! ## The commands of a script -/

theorem commandsOf_rendered {β : Type} (registry : Registry β) (file : String)
    {commands : List (List String)} (verbs : ∀ words ∈ commands, ∃ verb arguments,
      words = verb :: arguments ∧ registry.has verb = true)
    {lines : List LogicalLine} (h : lines.map LogicalLine.text = commands.map renderedLine) :
    ∃ parsed, commandsOf registry file lines = .ok parsed ∧ parsed.map Command.words = commands ∧
      parsed.map Command.line = lines.map LogicalLine.line ∧
      ∀ c ∈ parsed, registry.lookup c.verb = some c.handler := by
  induction commands generalizing lines with
  | nil =>
    obtain rfl := List.map_eq_nil_iff.1 h
    exact ⟨[], rfl, rfl, rfl, nofun⟩
  | cons words rest ih =>
    obtain ⟨l, lines, rfl⟩ : ∃ l lines', lines = l :: lines' := by
      cases lines with
      | nil => cases h
      | cons l lines => exact ⟨l, lines, rfl⟩
    obtain ⟨htext, hrest⟩ := List.cons.inj h
    obtain ⟨verb, arguments, rfl, hhas⟩ := verbs words List.mem_cons_self
    obtain ⟨handler, hlookup⟩ := Option.isSome_iff_exists.1 hhas
    obtain ⟨parsed, hparsed, hwords, hlines, hhandlers⟩ :=
      ih (fun w hw => verbs w (List.mem_cons_of_mem _ hw)) hrest
    have hcommand : l.command? registry = .ok ⟨handler, verb, arguments, l.line⟩ := by
      have hsplit : splitWords l.text = .ok (verb.toList :: arguments.map String.toList) :=
        htext ▸ splitWords_renderedLine (List.cons_ne_nil _ _)
      unfold LogicalLine.command?
      rw [hsplit]
      simp [hlookup, Function.comp_def]
    refine ⟨⟨handler, verb, arguments, l.line⟩ :: parsed, ?_, ?_, ?_, ?_⟩
    · rw [commandsOf, hcommand, hparsed]
      rfl
    · rw [List.map_cons, hwords]
      rfl
    · rw [List.map_cons, List.map_cons, hlines]
    · exact List.forall_mem_cons.2 ⟨hlookup, hhandlers⟩

/-- Rendered commands read back: the words, the handlers and the lines are those of the commands, and
where no argument is empty or has a dollar sign, expansion leaves the arguments as they are. -/
theorem parse_rendered {β : Type} (registry : Registry β) (file : String)
    {commands : List (List String)} {ending : List Char} (nonempty : commands ≠ [])
    (verbs : ∀ words ∈ commands, ∃ verb arguments,
      words = verb :: arguments ∧ registry.has verb = true)
    (newlines : ∀ words ∈ commands, ∀ word ∈ words, '\n' ∉ word.toList)
    (hend : ending = [] ∨ ending = ['\n']) :
    ∃ parsed, parse registry file (String.ofList (rendered commands ++ ending)) = .ok parsed ∧
      parsed.map Command.words = commands ∧
      parsed.map Command.line = List.range' 1 commands.length ∧
      (∀ c ∈ parsed, registry.lookup c.verb = some c.handler ∧ c.handler.name = c.verb) ∧
      ∀ c ∈ parsed, (∀ argument ∈ c.arguments, argument ≠ "" ∧ '$' ∉ argument.toList) →
        ∀ env : Environment, env.expandArguments c.handler.name c.arguments = .ok c.arguments := by
  have framed : ∀ words ∈ commands, Framed (renderedLine words) := by
    intro words hwords
    obtain ⟨verb, arguments, hsplit, -⟩ := verbs words hwords
    exact framed_renderedLine (hsplit ▸ List.cons_ne_nil _ _) (newlines words hwords)
  have hcontent := content_physicalLines nonempty framed hend
  have hraws : ∀ raw ∈ physicalLines (rendered commands ++ ending), Framed (content raw) := by
    intro raw hraw
    have hmem : content raw ∈ commands.map renderedLine := hcontent ▸ List.mem_map_of_mem hraw
    obtain ⟨words, hwords, heq⟩ := List.mem_map.1 hmem
    exact heq ▸ framed words hwords
  obtain ⟨htext, hline, hpending⟩ := LineReader.readAll_framed hraws .start rfl
  obtain ⟨parsed, hparsed, hwords, hlines, hhandlers⟩ :=
    commandsOf_rendered registry file verbs (htext.trans hcontent)
  have hlength : (physicalLines (rendered commands ++ ending)).length = commands.length := by
    have := congrArg List.length hcontent
    rwa [List.length_map, List.length_map] at this
  refine ⟨parsed, ?_, hwords, ?_, fun c hc => ⟨hhandlers c hc, Registry.name_of_lookup (hhandlers c hc)⟩,
    fun c _ plain env => env.expandArguments_eq_self plain⟩
  · unfold parse logicalLines
    rw [String.toList_ofList]
    simp only [hparsed, hpending]
  · rw [hlines, hline, hlength, LineReader.start]

/-- Two commands, one of them with an empty word and one with quotes, a backslash and a blank at the end. -/
theorem parse_rendered_hard_words :
    let commands := [["sync", ""], ["mkfile", "#a \"b\\\r", "c\\ "]]
    ∃ parsed, parse Verb.standard "x.t" (String.ofList (rendered commands ++ ['\n'])) = .ok parsed ∧
      parsed.map Command.words = commands ∧ parsed.map Command.line = [1, 2] ∧
      ∀ c ∈ parsed, (∀ argument ∈ c.arguments, argument ≠ "" ∧ '$' ∉ argument.toList) →
        ∀ env : Environment, env.expandArguments c.handler.name c.arguments = .ok c.arguments := by
  intro commands
  have verbs : ∀ words ∈ commands, ∃ verb arguments,
      words = verb :: arguments ∧ Verb.standard.has verb = true := by
    rintro words hwords
    obtain rfl | hwords := List.mem_cons.1 hwords
    · exact ⟨_, _, rfl, by decide⟩
    · obtain rfl := List.mem_singleton.1 hwords
      exact ⟨_, _, rfl, by decide⟩
  have newlines : ∀ words ∈ commands, ∀ word ∈ words, '\n' ∉ word.toList := by decide
  obtain ⟨parsed, hparsed, hwords, hlines, -, hexpand⟩ := parse_rendered Verb.standard "x.t"
    (List.cons_ne_nil _ _) verbs newlines (.inr rfl)
  exact ⟨parsed, hparsed, hwords, hlines, hexpand⟩

end TwinTrees.Script
