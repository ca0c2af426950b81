import Mathlib.Data.List.Induction
import TwinTrees.Proofs.Script.Division

/-!
# Lines that are refused

A line is divided into words exactly if its scan ends between words, in a word or in a comment. Else
there is one reason for which it is refused, and the reason says at which byte (`StopsAt`): at a
single quote that is never closed, at a backslash with nothing after it, or at the end of the line
inside double quotes. The grammar of lines refuses the same lines at the same byte, as the furthest
place at which one of its rules has failed.
-/

namespace TwinTrees.Script

/-- The byte at which a line stops making sense. -/
inductive StopsAt : List Char → Nat → Prop
  | singleQuote {before text : List Char}
    (outside : (WordScan.start.run before).mode = .between ∨
      (WordScan.start.run before).mode = .inWord)
    (unclosed : '\'' ∉ text) : StopsAt (before ++ '\'' :: text) (Text.byteLength before)
  | doubleQuote {line : List Char} (inside : (WordScan.start.run line).mode = .doubleQuoted) :
    StopsAt line (Text.byteLength line)
  | backslash {before : List Char}
    (meant : (WordScan.start.run before).mode = .between ∨
      (WordScan.start.run before).mode = .inWord ∨
      (WordScan.start.run before).mode = .doubleQuoted) :
    StopsAt (before ++ ['\\']) (Text.byteLength before)

namespace WordScan

variable {s : WordScan} {c : Char}

theorem offset_run_start (text : List Char) : (start.run text).offset = Text.byteLength text :=
  (LineGrammar.offset_run start text).trans (Nat.zero_add _)

/-- Text between single quotes has just been opened, or goes on. -/
theorem mode_of_step_singleQuoted {opened : Nat} (h : (s.step c).mode = .singleQuoted opened) :
    c = '\'' ∧ opened = s.offset ∧ (s.mode = .between ∨ s.mode = .inWord) ∨
      c ≠ '\'' ∧ s.mode = .singleQuoted opened := by
  obtain ⟨mode, offset, current, finished⟩ := s
  cases mode <;> simp only [step, react, openPiece, push, finishWord] at h <;> grind

theorem mode_of_step_escape {slash : Nat} (h : (s.step c).mode = .escape slash) :
    c = '\\' ∧ slash = s.offset ∧ (s.mode = .between ∨ s.mode = .inWord) := by
  obtain ⟨mode, offset, current, finished⟩ := s
  cases mode <;> simp only [step, react, openPiece, push, finishWord] at h <;> grind

theorem mode_of_step_doubleEscape {slash : Nat} (h : (s.step c).mode = .doubleEscape slash) :
    c = '\\' ∧ slash = s.offset ∧ s.mode = .doubleQuoted := by
  obtain ⟨mode, offset, current, finished⟩ := s
  cases mode <;> simp only [step, react, openPiece, push, finishWord] at h <;> grind

/-- The single quote that is open. The induction is on the line from its end: the quote was opened
by the last character, or before it. -/
theorem exists_of_singleQuoted {line : List Char} {opened : Nat}
    (h : (start.run line).mode = .singleQuoted opened) : ∃ before text,
      line = before ++ '\'' :: text ∧ opened = Text.byteLength before ∧ '\'' ∉ text ∧
        ((start.run before).mode = .between ∨ (start.run before).mode = .inWord) := by
  induction line using List.reverseRecOn with
  | nil => cases h
  | append_singleton line c ih =>
    rw [run_append] at h
    rcases mode_of_step_singleQuoted h with ⟨rfl, hopened, houtside⟩ | ⟨hc, hmode⟩
    · rw [offset_run_start] at hopened
      exact ⟨line, [], rfl, hopened, List.not_mem_nil, houtside⟩
    · obtain ⟨before, text, rfl, hopened, hunclosed, houtside⟩ := ih hmode
      refine ⟨before, text ++ [c], by simp, hopened, ?_, houtside⟩
      simp [hunclosed, Ne.symm hc]

theorem exists_of_escape {line : List Char} {slash : Nat}
    (h : (start.run line).mode = .escape slash ∨ (start.run line).mode = .doubleEscape slash) :
    ∃ before, line = before ++ ['\\'] ∧ slash = Text.byteLength before ∧
      ((start.run before).mode = .between ∨ (start.run before).mode = .inWord ∨
        (start.run before).mode = .doubleQuoted) := by
  rcases List.eq_nil_or_concat line with rfl | ⟨before, c, rfl⟩
  · rcases h with h | h <;> cases h
  · rw [List.concat_eq_append]
    rw [List.concat_eq_append, run_append] at h
    rcases h with h | h
    · obtain ⟨rfl, hslash, hmode⟩ := mode_of_step_escape h
      exact ⟨before, rfl, hslash.trans (offset_run_start before),
        hmode.elim .inl fun hword => .inr (.inl hword)⟩
    · obtain ⟨rfl, hslash, hmode⟩ := mode_of_step_doubleEscape h
      exact ⟨before, rfl, hslash.trans (offset_run_start before), .inr (.inr hmode)⟩

theorem step_quote (h : s.mode = .between ∨ s.mode = .inWord) :
    s.step '\'' = ⟨.singleQuoted s.offset, s.offset + 1, s.current, s.finished⟩ := by
  obtain ⟨mode, offset, current, finished⟩ := s
  rcases h with rfl | rfl <;> rfl

theorem finish_step_slash (h : s.mode = .between ∨ s.mode = .inWord ∨ s.mode = .doubleQuoted) :
    (s.step '\\').finish = .error ⟨s.offset⟩ := by
  obtain ⟨mode, offset, current, finished⟩ := s
  rcases h with rfl | rfl | rfl <;> rfl

end WordScan

theorem stopsAt_of_error {line : List Char} {e : UnfinishedWord}
    (h : splitWords line = .error e) : StopsAt line e.offset := by
  unfold splitWords WordScan.finish at h
  cases hmode : (WordScan.start.run line).mode with
  | between | inWord | comment => simp [hmode] at h
  | singleQuoted opened =>
    obtain ⟨before, text, rfl, rfl, hunclosed, houtside⟩ := WordScan.exists_of_singleQuoted hmode
    simp only [hmode, Except.error.injEq] at h
    exact h ▸ .singleQuote houtside hunclosed
  | doubleQuoted =>
    simp only [hmode, WordScan.offset_run_start, Except.error.injEq] at h
    exact h ▸ .doubleQuote hmode
  | doubleEscape slash =>
    obtain ⟨before, rfl, rfl, hmeant⟩ := WordScan.exists_of_escape (.inr hmode)
    simp only [hmode, Except.error.injEq] at h
    exact h ▸ .backslash hmeant
  | escape slash =>
    obtain ⟨before, rfl, rfl, hmeant⟩ := WordScan.exists_of_escape (.inl hmode)
    simp only [hmode, Except.error.injEq] at h
    exact h ▸ .backslash hmeant

theorem StopsAt.error {line : List Char} {stop : Nat} (h : StopsAt line stop) :
    splitWords line = .error ⟨stop⟩ := by
  unfold splitWords
  cases h with
  | @singleQuote before text houtside hunclosed =>
    have htext : ∀ c ∈ text, LineGrammar.isSingle c = true := by
      intro c hc
      have hne : c ≠ '\'' := fun h => hunclosed (h ▸ hc)
      simpa [LineGrammar.isSingle] using hne
    let s := WordScan.start.run before
    calc (WordScan.start.run (before ++ '\'' :: text)).finish
      _ = ((s.step '\'').run text).finish := by rw [WordScan.run_append]; rfl
      _ = .error ⟨s.offset⟩ := by
        rw [WordScan.step_quote houtside, LineGrammar.run_single _ _ htext]
        rfl
      _ = .error ⟨Text.byteLength before⟩ := by rw [WordScan.offset_run_start]
  | doubleQuote hinside =>
    simp [WordScan.finish, hinside, WordScan.offset_run_start]
  | @backslash before hmeant =>
    calc (WordScan.start.run (before ++ ['\\'])).finish
      _ = ((WordScan.start.run before).step '\\').finish := by rw [WordScan.run_append]; rfl
      _ = .error ⟨(WordScan.start.run before).offset⟩ := WordScan.finish_step_slash hmeant
      _ = .error ⟨Text.byteLength before⟩ := by rw [WordScan.offset_run_start]

/-- Where a line may end. -/
theorem exists_words_iff (line : List Char) : (∃ words, splitWords line = .ok words) ↔
    (WordScan.start.run line).mode = .between ∨ (WordScan.start.run line).mode = .inWord ∨
      (WordScan.start.run line).mode = .comment := by
  unfold splitWords WordScan.finish
  cases (WordScan.start.run line).mode <;> simp

/-- The grammar of lines, read by ordered choice with its negative look-aheads, and the scan from
left to right give the same answer on every line: the same words, where the scan ends between words,
in a word or in a comment, and else the byte of the open single quote, of the backslash with nothing
to escape, or of the end of the line in double quotes. -/
theorem line_by_grammar (line : List Char) :
    LineGrammar.divide line = splitWords line ∧
    ((∃ words, LineGrammar.divide line = .ok words) ↔
      (WordScan.start.run line).mode = .between ∨ (WordScan.start.run line).mode = .inWord ∨
        (WordScan.start.run line).mode = .comment) ∧
    ∀ stop, LineGrammar.divide line = .error ⟨stop⟩ ↔ StopsAt line stop := by
  rw [LineGrammar.divide_eq_splitWords]
  refine ⟨rfl, exists_words_iff line, fun stop => ⟨fun h => ?_, StopsAt.error⟩⟩
  exact stopsAt_of_error h

end TwinTrees.Script
