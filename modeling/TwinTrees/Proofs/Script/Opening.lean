import TwinTrees.Proofs.Registry.History
import TwinTrees.Proofs.Script.Division
import TwinTrees.Proofs.Script.Position

/-!
# How a command opens

The text of a logical line is joined from the contents of physical lines. Of those that go on the
backslash is left out, so nothing may be left of them; but what is left never starts with white
space or with `#` (`OpensWord`), and the last line of a command is taken whole. So the text of a
logical line has a first character, and it is one that opens a word.

From this character on the scan has a word, finished or not (`WordScan.HasWord`), and neither a
blank nor a comment takes it away again. So a line that can be divided has a first word, and no line
is at fault for want of one (`every_command_has_verb`).
-/

namespace TwinTrees.Script

/-! ## First characters -/

/-- The text does not start with white space, nor like a comment. -/
def OpensWord (text : List Char) : Prop := ∀ c ∈ text.head?, Text.isBlank c = false ∧ c ≠ '#'

theorem OpensWord.append {a b : List Char} (ha : OpensWord a) (hb : OpensWord b) :
    OpensWord (a ++ b) := by
  cases a with
  | nil => exact hb
  | cons c a => exact ha

theorem OpensWord.dropLast {text : List Char} (h : OpensWord text) : OpensWord text.dropLast := by
  match text with
  | [] => exact h
  | [c] => exact nofun
  | c :: d :: text => exact h

theorem OpensWord.flatMap {α : Type} {f : α → List Char} {xs : List α}
    (h : ∀ x ∈ xs, OpensWord (f x)) : OpensWord (xs.flatMap f) := by
  induction xs with
  | nil => exact nofun
  | cons x xs ih =>
    obtain ⟨hx, hxs⟩ := List.forall_mem_cons.1 h
    exact hx.append (ih hxs)

section Lines

variable {raw : List Char}

theorem opensWord_content (h : counts raw = true) : OpensWord (content raw) := by
  intro c hc
  constructor
  · -- The content starts where the white space in front of it ends.
    obtain ⟨ending, happend, -⟩ :=
      Text.exists_dropEndWhile_append Text.isBlank (raw.dropWhile Text.isBlank)
    have hhead : (raw.dropWhile Text.isBlank).head? = some c := by
      rw [happend, List.head?_append]
      exact congrArg (Option.or · _) hc
    have hnot := List.head?_dropWhile_not Text.isBlank raw
    rwa [hhead] at hnot
  · rintro rfl
    rw [counts, isSkipped, Option.mem_def.1 hc] at h
    simp at h

theorem content_ne_nil (h : counts raw = true) : content raw ≠ [] := by
  intro hnil
  rw [counts, hnil] at h
  cases h

theorem opensWord_saidBy (raws : List (List Char)) : OpensWord (saidBy raws) :=
  OpensWord.flatMap fun _ hraw => (opensWord_content (List.mem_filter.1 hraw).2).dropLast

/-- A stretch that is finished says something, for its last line is taken whole. -/
theorem Stretch.said_opensWord (x : Stretch) (h : continues x.last = false) :
    x.said ≠ [] ∧ OpensWord x.said := by
  have hsaid : x.said = saidBy x.front ++ content x.last := by
    rw [Stretch.said, continued?_eq, h]
    rfl
  rw [hsaid]
  exact ⟨List.append_ne_nil_of_right_ne_nil _ (content_ne_nil x.ends),
    (opensWord_saidBy x.front).append (opensWord_content x.ends)⟩

/-- A finished logical line has a first character, which is neither white space nor `#`. -/
theorem exists_first_of_mem_logicalLines {source : List Char} {l : LogicalLine}
    (h : l ∈ (logicalLines source).1) :
    ∃ c rest, l.text = c :: rest ∧ Text.isBlank c = false ∧ c ≠ '#' := by
  obtain ⟨-, hlines⟩ := LineReader.hasRead_start.readAll (physicalLines source)
  obtain ⟨x, -, hgives, -, hends⟩ := hlines l h
  obtain ⟨hne, hopens⟩ := x.said_opensWord hends
  rw [← hgives.text] at hne hopens
  obtain ⟨c, rest, htext⟩ := List.exists_cons_of_ne_nil hne
  exact ⟨c, rest, htext, hopens c (by rw [htext]; rfl)⟩

end Lines

/-! ## First words -/

namespace WordScan

variable {s : WordScan}

/-- The scan is inside a word. -/
def InWord (s : WordScan) : Prop := s.mode ≠ .between ∧ s.mode ≠ .comment

/-- The scan has a word, finished or not. -/
def HasWord (s : WordScan) : Prop := s.finished ≠ [] ∨ s.InWord

/-- A character that opens a piece of a word leads into the word. -/
theorem inWord_openPiece (s : WordScan) (c : Char) : (s.openPiece c).InWord := by
  unfold openPiece
  split
  · exact ⟨nofun, nofun⟩
  · split
    · exact ⟨nofun, nofun⟩
    · split <;> exact ⟨nofun, nofun⟩

theorem finished_openPiece (s : WordScan) (c : Char) : (s.openPiece c).finished = s.finished := by
  unfold openPiece
  split
  · rfl
  · split
    · rfl
    · split <;> rfl

/-- Inside a word the next character ends the word or stays inside. -/
theorem InWord.react (h : s.InWord) (c : Char) : (s.react c).HasWord := by
  obtain ⟨mode, offset, current, finished⟩ := s
  unfold WordScan.react
  cases mode with
  | between => exact absurd rfl h.1
  | comment => exact absurd rfl h.2
  | inWord =>
    simp only
    split
    · exact .inl (List.cons_ne_nil _ _)
    · exact .inr (inWord_openPiece _ c)
  | singleQuoted opened =>
    simp only
    split <;> exact .inr ⟨nofun, nofun⟩
  | doubleQuoted =>
    simp only
    split
    · exact .inr ⟨nofun, nofun⟩
    · split <;> exact .inr ⟨nofun, nofun⟩
  | doubleEscape slash => exact .inr ⟨nofun, nofun⟩
  | escape slash => exact .inr ⟨nofun, nofun⟩

/-- Outside of words the finished words are kept. -/
theorem finished_react (h : ¬ s.InWord) (c : Char) : (s.react c).finished = s.finished := by
  have hmode : s.mode = .between ∨ s.mode = .comment := by
    rw [InWord, not_and_or, not_not, not_not] at h
    exact h
  unfold WordScan.react
  obtain hmode | hmode := hmode
  · simp only [hmode]
    split
    · rfl
    · split
      · rfl
      · exact s.finished_openPiece c
  · simp only [hmode]

theorem HasWord.step (h : s.HasWord) (c : Char) : (s.step c).HasWord := by
  by_cases hin : s.InWord
  · exact hin.react c
  · have hfinished := h.resolve_right hin
    rw [← finished_react hin c] at hfinished
    exact .inl hfinished

theorem HasWord.run (h : s.HasWord) (text : List Char) : (s.run text).HasWord := by
  induction text generalizing s with
  | nil => exact h
  | cons c text ih => exact ih (h.step c)

theorem HasWord.finish_ne_nil (h : s.HasWord) : s.finish ≠ .ok [] := by
  have houtside : ¬ s.InWord → (.ok s.finished.reverse : Except UnfinishedWord _) ≠ .ok [] := by
    intro hin hnil
    exact h.resolve_right hin (List.reverse_eq_nil_iff.1 (Except.ok.inj hnil))
  unfold finish
  split
  · next hmode => exact houtside fun hin => hin.1 hmode
  · next hmode => exact houtside fun hin => hin.2 hmode
  · simp
  all_goals exact nofun

/-- Between words, a character that is no separator and starts no comment opens a word. -/
theorem hasWord_step (h : s.mode = .between) {c : Char} (hblank : isSeparator c = false)
    (hhash : c ≠ '#') : (s.step c).HasWord := by
  have hreact : s.react c = s.openPiece c := by
    simp [WordScan.react, h, hblank, hhash]
  refine .inr ?_
  have hin := s.inWord_openPiece c
  rw [← hreact] at hin
  exact hin

end WordScan

theorem isSeparator_of_not_blank {c : Char} (h : Text.isBlank c = false) :
    WordScan.isSeparator c = false := by
  refine Bool.eq_false_iff.2 fun hseparator => ?_
  obtain rfl | rfl : c = ' ' ∨ c = '\t' := by simpa [WordScan.isSeparator] using hseparator
  all_goals cases h

/-- A text whose first character is neither white space nor `#` has a word, if it can be divided. -/
theorem exists_word_of_first {c : Char} (hblank : Text.isBlank c = false) (hhash : c ≠ '#')
    (rest : List Char) :
    (∃ e, splitWords (c :: rest) = .error e) ∨
      ∃ word more, splitWords (c :: rest) = .ok (word :: more) := by
  have hword : (WordScan.start.run (c :: rest)).HasWord :=
    (WordScan.hasWord_step rfl (isSeparator_of_not_blank hblank) hhash).run rest
  cases hwords : splitWords (c :: rest) with
  | error e => exact .inl ⟨e, rfl⟩
  | ok words =>
    cases words with
    | nil => exact absurd hwords hword.finish_ne_nil
    | cons word more => exact .inr ⟨word, more, rfl⟩

/-! ## Verbs -/

section Verbs

variable {β : Type} (registry : Registry β)

/-- A command comes from a line with words; the first of them is the verb, and the registry has a
handler for it. -/
theorem LogicalLine.exists_words_of_command {l : LogicalLine} {c : Command β}
    (h : l.command? registry = .ok c) :
    ∃ word more, splitWords l.text = .ok (word :: more) ∧
      c.words = (word :: more).map String.ofList ∧ c.verb = String.ofList word ∧
      registry.lookup c.verb = some c.handler := by
  obtain ⟨-, hwords⟩ := l.of_command?_eq_ok registry h
  refine ⟨c.verb.toList, c.arguments.map String.toList, hwords, ?_, String.ofList_toList.symm,
    l.lookup_of_command? h⟩
  simp [Command.words, Function.comp_def]

/-- A line with a word is not at fault for want of one. -/
theorem LogicalLine.command?_ne_noWords {l : LogicalLine} (h : splitWords l.text ≠ .ok []) :
    l.command? registry ≠ .error .noWords := by
  unfold command?
  split
  · exact nofun
  · next hnil => exact absurd hnil h
  · split <;> exact nofun

/-- Every finished logical line starts with a character that is neither white space nor `#`. It is
refused, by the scan and by the grammar, or it has a first word. So a script is never at fault for a
line without words, and every command of a script has the words of one of its lines, with a first
word that the registry knows. -/
theorem every_command_has_verb (file source : String) :
    (∀ l ∈ (logicalLines source.toList).1,
      (∃ c rest, l.text = c :: rest ∧ Text.isBlank c = false ∧ c ≠ '#') ∧
      ((∃ e, splitWords l.text = .error e ∧ LineGrammar.divide l.text = .error e) ∨
        ∃ word more, splitWords l.text = .ok (word :: more) ∧
          LineGrammar.divide l.text = .ok (word :: more)) ∧
      l.command? registry ≠ .error .noWords) ∧
    (∀ e, parse registry file source = .error e → e.fault ≠ .noWords) ∧
    ∀ commands, parse registry file source = .ok commands →
      List.Forall₂ (fun c l => ∃ word more, splitWords l.text = .ok (word :: more) ∧
        c.words = (word :: more).map String.ofList ∧ c.verb = String.ofList word ∧
        registry.lookup c.verb = some c.handler) commands (logicalLines source.toList).1 := by
  have hfirst : ∀ l ∈ (logicalLines source.toList).1, (∃ e, splitWords l.text = .error e) ∨
      ∃ word more, splitWords l.text = .ok (word :: more) := by
    intro l hl
    obtain ⟨c, rest, htext, hblank, hhash⟩ := exists_first_of_mem_logicalLines hl
    rw [htext]
    exact exists_word_of_first hblank hhash rest
  have hfault : ∀ l ∈ (logicalLines source.toList).1, l.command? registry ≠ .error .noWords := by
    refine fun l hl => l.command?_ne_noWords registry fun hnil => ?_
    obtain ⟨e, herror⟩ | ⟨word, more, hwords⟩ := hfirst l hl
    · rw [hnil] at herror
      cases herror
    · rw [hnil] at hwords
      cases hwords
  refine ⟨fun l hl => ⟨exists_first_of_mem_logicalLines hl, ?_, hfault l hl⟩, fun e he => ?_,
    fun commands hcommands => ?_⟩
  · rw [LineGrammar.divide_eq_splitWords]
    obtain ⟨e, he⟩ | ⟨word, more, hwords⟩ := hfirst l hl
    · exact .inl ⟨e, he, he⟩
    · exact .inr ⟨word, more, hwords, hwords⟩
  · obtain ⟨-, l, -, fault, -, -, hl, rfl⟩ := exists_of_parse_error registry he
    rintro rfl
    obtain ⟨hmem, hcommand⟩ | ⟨-, hunfinished⟩ := hl
    · exact hfault l hmem hcommand
    · cases hunfinished
  · obtain ⟨hlines, -⟩ := parse_eq_ok registry file hcommands
    exact (forall₂_of_commandsOf registry hlines).imp fun c l hl =>
      l.exists_words_of_command registry hl

end Verbs

/-- A command whose first and third line are a backslash alone, with a comment between them, an
empty word and a comment at its end; and such a line before an open quote. -/
theorem every_command_has_verb_after_backslashes :
    let source := "\\\n# none\n \\\n  rm '' # x\n"
    let first : LogicalLine := ⟨"rm '' # x".toList, 4, 0, 23⟩
    let broken := "\\\n'a\n"
    logicalLines source.toList = ([first], none) ∧
      (∃ c rest, first.text = c :: rest ∧ Text.isBlank c = false ∧ c ≠ '#') ∧
      (∃ commands, parse Verb.standard "a.t" source = .ok commands ∧
        commands.map Command.words = [["rm", ""]] ∧
        List.Forall₂ (fun c l => ∃ word more, splitWords l.text = .ok (word :: more) ∧
          c.words = (word :: more).map String.ofList ∧ c.verb = String.ofList word ∧
          Verb.standard.lookup c.verb = some c.handler) commands [first]) ∧
      ∃ e, parse Verb.standard "b.t" broken = .error e ∧ e.fault = .unfinishedWord ⟨0⟩ ∧
        e.fault ≠ .noWords := by
  intro source first broken
  have hlines : logicalLines source.toList = ([first], none) := by decide
  obtain ⟨hfirst, -, hverbs⟩ := every_command_has_verb Verb.standard "a.t" source
  rw [hlines] at hfirst hverbs
  obtain ⟨commands, hcommands, hwords⟩ : ∃ commands,
      parse Verb.standard "a.t" source = .ok commands ∧
      commands.map Command.words = [["rm", ""]] := by
    unfold source
    exact ⟨_, rfl, rfl⟩
  obtain ⟨e, he, hfault⟩ : ∃ e, parse Verb.standard "b.t" broken = .error e ∧
      e.fault = .unfinishedWord ⟨0⟩ := by
    unfold broken
    exact ⟨_, rfl, rfl⟩
  exact ⟨hlines, (hfirst first List.mem_cons_self).1,
    ⟨commands, hcommands, hwords, hverbs commands hcommands⟩, e, he, hfault,
    (every_command_has_verb Verb.standard "b.t" broken).2.1 e he⟩

end TwinTrees.Script
