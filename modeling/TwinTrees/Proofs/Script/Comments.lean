import TwinTrees.Proofs.Script.Layout

/-!
# Comments at the end of a line

A comment after the words of a line is not read: once a blank and a `#` have been seen where a word
could start, the scan of the line stays in the comment. So a comment can be added to a line that
ends a command without a change to what the script says (`parse_commented`), but for two things that
happen before the line is scanned. A physical line that ends in a backslash continues, whether or
not the backslash is part of a comment; and white space at the end of a physical line is trimmed,
where only spaces and tabs separate words (`comment_changes_commands`).
-/

namespace TwinTrees

namespace Script

/-! ## The scan of a comment -/

namespace WordScan

variable {s : WordScan} {words : List (List Char)}

theorem finish_step_of_comment (h : s.mode = .comment) (c : Char) :
    (s.step c).mode = .comment ∧ (s.step c).finish = s.finish := by
  simp [step, react, finish, h]

/-- A comment lasts to the end of the line. -/
theorem finish_run_of_comment (h : s.mode = .comment) (text : List Char) :
    (s.run text).finish = s.finish := by
  induction text generalizing s with
  | nil => rfl
  | cons c text ih =>
    obtain ⟨hmode, hfinish⟩ := finish_step_of_comment h c
    exact (ih hmode).trans hfinish

/-- Where a line may end, a blank ends the word. -/
theorem finish_step_separator (h : s.finish = .ok words) {c : Char} (hc : isSeparator c = true) :
    (s.step c).finish = .ok words ∧ ((s.step c).mode = .between ∨ (s.step c).mode = .comment) := by
  cases hmode : s.mode <;> simp_all [step, react, finish, finishWord]

theorem finish_run_separators (h : s.finish = .ok words) {blanks : List Char}
    (hblanks : ∀ c ∈ blanks, isSeparator c = true) : (s.run blanks).finish = .ok words := by
  induction blanks generalizing s with
  | nil => exact h
  | cons c blanks ih =>
    exact ih (finish_step_separator h (hblanks c List.mem_cons_self)).1
      fun d hd => hblanks d (List.mem_cons_of_mem _ hd)

theorem finish_step_hash (h : s.mode = .between ∨ s.mode = .comment) :
    (s.step '#').mode = .comment ∧ (s.step '#').finish = s.finish := by
  rcases h with h | h <;> simp [step, react, finish, isSeparator, h]

/-- A comment after a blank does not change the words of the line. -/
theorem finish_run_commented (h : s.finish = .ok words) {blanks : List Char} {blank : Char}
    (hblanks : ∀ c ∈ blanks, isSeparator c = true) (hblank : isSeparator blank = true)
    (text : List Char) : (s.run (blanks ++ blank :: '#' :: text)).finish = .ok words := by
  have hbefore := finish_run_separators h hblanks
  obtain ⟨hfinish, hmode⟩ := finish_step_separator hbefore hblank
  obtain ⟨hcomment, hhash⟩ := finish_step_hash hmode
  rw [run_append]
  calc ((s.run blanks).run (blank :: '#' :: text)).finish
    _ = ((((s.run blanks).step blank).step '#').run text).finish := rfl
    _ = (((s.run blanks).step blank).step '#').finish := finish_run_of_comment hcomment text
    _ = .ok words := hhash.trans hfinish

end WordScan

theorem splitWords_commented {line : List Char} {words : List (List Char)}
    (h : splitWords line = .ok words) {blanks : List Char} {blank : Char}
    (hblanks : ∀ c ∈ blanks, WordScan.isSeparator c = true)
    (hblank : WordScan.isSeparator blank = true) (text : List Char) :
    splitWords (line ++ (blanks ++ blank :: '#' :: text)) = .ok words := by
  unfold splitWords
  rw [WordScan.run_append]
  exact WordScan.finish_run_commented h hblanks hblank text

/-! ## The line with the comment -/

/-- A content that does not end in white space is only trimmed at its start. -/
theorem content_eq_dropWhile {line : List Char} (h : ∀ c ∈ line.getLast?, Text.isBlank c = false) :
    content line = line.dropWhile Text.isBlank := by
  refine Text.dropEndWhile_eq_self fun c hc => ?_
  obtain ⟨before, hbefore⟩ := List.dropWhile_suffix Text.isBlank (l := line)
  cases hline : line.dropWhile Text.isBlank with
  | nil => simp [hline] at hc
  | cons d rest =>
    rw [hline] at hc hbefore
    refine h c ?_
    rw [← hbefore, List.getLast?_append, hc]
    rfl

/-- The content of a line with a comment: the content of the line, the blanks and the comment as far
as it is not trimmed. -/
theorem content_commented {body blanks text ending : List Char} {blank : Char}
    (hbody : ∀ c ∈ body.getLast?, Text.isBlank c = false)
    (counts : isSkipped (content body) = false)
    (hending : ∀ c ∈ ending, Text.isBlank c = true) :
    content (body ++ (blanks ++ blank :: '#' :: text) ++ ending) =
      content body ++ (blanks ++ blank :: '#' :: Text.dropEndWhile Text.isBlank text) := by
  obtain ⟨after, htext, hafter⟩ := Text.exists_dropEndWhile_append Text.isBlank text
  have hsplit : body ++ (blanks ++ blank :: '#' :: text) ++ ending =
      [] ++ (body ++ (blanks ++ blank :: '#' :: Text.dropEndWhile Text.isBlank text) ++
        (after ++ ending)) := by
    conv_lhs => rw [htext]
    simp
  have htrail : ∀ c ∈ after ++ ending, Text.isBlank c = true := fun c hc =>
    (List.mem_append.1 hc).elim (hafter c) (hending c)
  have hlast : ∀ c ∈ (body ++ (blanks ++ blank :: '#' ::
      Text.dropEndWhile Text.isBlank text)).getLast?, Text.isBlank c = false := by
    intro c hc
    rw [List.getLast?_append, List.getLast?_append, List.getLast?_cons_cons] at hc
    cases hkept : Text.dropEndWhile Text.isBlank text with
    | nil =>
      obtain rfl : '#' = c := by simpa [hkept] using hc
      decide
    | cons d rest =>
      rw [hkept, List.getLast?_cons_cons, ← hkept] at hc
      refine Text.getLast?_dropEndWhile (s := text) c ?_
      cases hd : (Text.dropEndWhile Text.isBlank text).getLast? with
      | none => simp [hkept] at hd
      | some e => simpa [hd] using hc
  have hne : ¬ (body.dropWhile Text.isBlank).isEmpty = true := by
    rw [content_eq_dropWhile hbody] at counts
    intro hempty
    simp [isSkipped, hempty] at counts
  rw [hsplit, content_append_blank (List.forall_mem_nil _) htrail, content_eq_dropWhile hbody,
    content_eq_dropWhile hlast, List.dropWhile_append, if_neg hne]

/-! ## The lines of the script -/

namespace LineReader

/-- A line that counts and does not continue ends the logical line. -/
theorem read_of_ends (r : LineReader) {raw : List Char} (counts : isSkipped (content raw) = false)
    (ends : continued? (content raw) = none) :
    r.read raw = (⟨r.line + 1, r.offset + Text.byteLength raw, none⟩,
      some { r.extend raw with text := (r.extend raw).text ++ content raw }) := by
  simp [read, counts, ends]

theorem extend_line (r : LineReader) (raw : List Char) : (r.extend raw).line = r.line + 1 := by
  unfold extend
  split <;> rfl

theorem extend_text (r : LineReader) (raw raw' : List Char) :
    (r.extend raw).text = (r.extend raw').text := by
  unfold extend
  split <;> rfl

end LineReader

/-- The error without the bytes it is about. -/
def ScriptError.unplaced (e : ScriptError) : Nat × LineFault × String :=
  (e.line, e.fault, e.message)

section Commands

variable {β : Type} (registry : Registry β) (file : String)

/-- Logical lines that give the same command, or the same fault on the same line. -/
def LogicalLine.Agrees (l l' : LogicalLine) : Prop :=
  l.command? registry = l'.command? registry ∧ l.line = l'.line

theorem LogicalLine.agrees_refl (l : LogicalLine) : l.Agrees registry l := ⟨rfl, rfl⟩

/-- Bytes further down, but on the same line. -/
theorem LogicalLine.agrees_below (bytes : Nat) (l : LogicalLine) :
    (l.below 0 bytes).Agrees registry l := by
  refine ⟨?_, rfl⟩
  rw [command?_below]
  cases l.command? registry <;> rfl

theorem LogicalLine.unplaced_error {l l' : LogicalLine} (h : l.line = l'.line)
    (fault : LineFault) : (l.error file fault).unplaced = (l'.error file fault).unplaced := by
  simp [error, ScriptError.unplaced, ScriptError.message, h]

theorem commandsOf_agrees {ls ls' : List LogicalLine}
    (h : List.Forall₂ (LogicalLine.Agrees registry) ls ls') :
    (commandsOf registry file ls).mapError ScriptError.unplaced =
      (commandsOf registry file ls').mapError ScriptError.unplaced := by
  induction h with
  | nil => rfl
  | @cons l l' ls ls' hl _ ih =>
    rw [commandsOf, commandsOf, hl.1]
    cases l'.command? registry with
    | error fault => exact congrArg Except.error (LogicalLine.unplaced_error file hl.2 fault)
    | ok c =>
      revert ih
      cases commandsOf registry file ls <;> cases commandsOf registry file ls' <;>
        simp [Except.map, Except.mapError]

end Commands

/-! ## Where a comment is added -/

/-- A text, cut at a physical line: the lines above it, the line up to the last character that is
not white space, the spaces and tabs after that character, the carriage returns at the line's end,
and the text below from the newline on. -/
structure LineCut where
  above : List Char
  body : List Char
  spaces : List Char
  returns : List Char
  below : List Char

namespace LineCut

/-- The line with `more` added, and what ends it. -/
def raw (t : LineCut) (more : List Char) : List Char :=
  t.body ++ (t.spaces ++ more) ++ (t.returns ++ t.below.take 1)

/-- The text with `more` added to the line. -/
def adding (t : LineCut) (more : List Char) : List Char :=
  t.above ++ (t.body ++ (t.spaces ++ more) ++ t.returns ++ t.below)

/-- The text. -/
def source (t : LineCut) : List Char := t.adding []

/-- The number of the line. -/
def number (t : LineCut) : Nat := t.above.count '\n' + 1

/-- The line ends a logical line. -/
structure EndsCommand (t : LineCut) : Prop where
  whole : ∀ c ∈ t.above.getLast?, c = '\n'
  single : '\n' ∉ t.body
  trimmed : ∀ c ∈ t.body.getLast?, Text.isBlank c = false
  counts : isSkipped (content t.body) = false
  ends : continued? (content t.body) = none
  spaces : ∀ c ∈ t.spaces, WordScan.isSeparator c = true
  returns : ∀ c ∈ t.returns, c = '\r'
  below : ∀ c ∈ t.below.head?, c = '\n'

variable {t : LineCut}

namespace EndsCommand

variable (h : t.EndsCommand)
include h

theorem body_ne_nil : t.body ≠ [] := by
  intro hnil
  have hcounts := h.counts
  rw [hnil] at hcounts
  cases hcounts

theorem physicalLines_adding {more : List Char} (hmore : '\n' ∉ more) :
    physicalLines (t.adding more) =
      physicalLines t.above ++ t.raw more :: physicalLines t.below.tail := by
  have hspaces : '\n' ∉ t.spaces := fun hmem => absurd (h.spaces _ hmem) (by decide)
  have hreturns : '\n' ∉ t.returns := fun hmem => absurd (h.returns _ hmem) (by decide)
  have hline : '\n' ∉ t.body ++ (t.spaces ++ more) ++ t.returns := by
    simp [h.single, hspaces, hmore, hreturns]
  have hne : t.body ++ (t.spaces ++ more) ++ t.returns ++ t.below ≠ [] := by
    simp [h.body_ne_nil]
  rw [adding, physicalLines_append h.whole, physicalLines_line hline h.below hne, raw,
    List.append_assoc _ t.returns]

theorem isBlank_of_mem_end : ∀ c ∈ t.returns ++ t.below.take 1, Text.isBlank c = true := by
  intro c hc
  rcases List.mem_append.1 hc with hc | hc
  · rw [h.returns c hc]
    decide
  · exact isBlank_of_mem_take h.below c hc

theorem content_raw : content (t.raw []) = content t.body := by
  have hblank : ∀ c ∈ t.spaces ++ (t.returns ++ t.below.take 1), Text.isBlank c = true := by
    intro c hc
    rcases List.mem_append.1 hc with hc | hc
    · have hsep := h.spaces c hc
      simp only [WordScan.isSeparator, Bool.or_eq_true, beq_iff_eq] at hsep
      rcases hsep with rfl | rfl <;> decide
    · exact h.isBlank_of_mem_end c hc
  rw [raw, List.append_nil, List.append_assoc]
  exact content_append_blank (List.forall_mem_nil _) hblank

theorem content_raw_comment (blank : Char) (text : List Char) :
    content (t.raw (blank :: '#' :: text)) =
      content t.body ++ (t.spaces ++ blank :: '#' :: Text.dropEndWhile Text.isBlank text) :=
  content_commented h.trimmed h.counts h.isBlank_of_mem_end

/-- A line with a comment counts, too. -/
theorem counts_comment (blank : Char) (text : List Char) :
    isSkipped (content (t.raw (blank :: '#' :: text))) = false := by
  have hcounts := h.counts
  rw [h.content_raw_comment]
  cases hbody : content t.body with
  | nil => simp [hbody, isSkipped] at hcounts
  | cons c rest => simpa [hbody, isSkipped] using hcounts

/-- A line with a comment ends the logical line unless the comment ends in a backslash. -/
theorem ends_comment (blank : Char) {text : List Char}
    (closed : (Text.dropEndWhile Text.isBlank text).getLast? ≠ some '\\') :
    continued? (content (t.raw (blank :: '#' :: text))) = none := by
  rw [h.content_raw_comment, continued?, if_neg]
  rw [List.getLast?_append, List.getLast?_append, List.getLast?_cons_cons]
  cases hkept : Text.dropEndWhile Text.isBlank text with
  | nil => simp
  | cons c rest =>
    rw [hkept] at closed
    rw [List.getLast?_cons_cons]
    simpa [List.getLast?_cons] using closed

end EndsCommand

end LineCut

/-! ## Scripts with a comment more -/

namespace LineCut

variable (t : LineCut) (more : List Char)

/-- The reader above the line. -/
def reader : LineReader := (LineReader.start.readAll (physicalLines t.above)).2

/-- The reader below the line. -/
def nextReader : LineReader :=
  ⟨t.reader.line + 1, t.reader.offset + Text.byteLength (t.raw more), none⟩

/-- The logical line that ends with the line. -/
def logicalLine : LogicalLine :=
  { t.reader.extend (t.raw more) with
    text := (t.reader.extend (t.raw more)).text ++ content (t.raw more) }

variable {t more}

theorem reader_line (h : t.EndsCommand) : t.reader.line + 1 = t.number := by
  rw [reader, LineReader.readAll_line, length_physicalLines h.whole, LineReader.start, number,
    Nat.zero_add]

theorem logicalLine_line (h : t.EndsCommand) : (t.logicalLine more).line = t.number :=
  (t.reader.extend_line _).trans (reader_line h)

/-- The text is read up to the line, to the end of the line, and from there on. -/
theorem logicalLines_adding (h : t.EndsCommand) (single : '\n' ∉ more)
    (counts : isSkipped (content (t.raw more)) = false)
    (ends : continued? (content (t.raw more)) = none) :
    logicalLines (t.adding more) =
      ((LineReader.start.readAll (physicalLines t.above)).1 ++ t.logicalLine more ::
          ((t.nextReader more).readAll (physicalLines t.below.tail)).1,
        ((t.nextReader more).readAll (physicalLines t.below.tail)).2.pending) := by
  unfold logicalLines
  rw [h.physicalLines_adding single, LineReader.readAll_append, LineReader.readAll_cons,
    LineReader.read_of_ends _ counts ends]
  rfl

/-- With more in the line, what is below is further down by its bytes. -/
theorem nextReader_eq_below (t : LineCut) (more : List Char) :
    t.nextReader more = (t.nextReader []).below 0 (Text.byteLength more) := by
  have hbytes : Text.byteLength (t.raw more) =
      Text.byteLength (t.raw []) + Text.byteLength more := by
    simp only [raw, Text.byteLength_append, Text.byteLength_nil]
    omega
  simp [nextReader, LineReader.below, hbytes, Nat.add_assoc]

end LineCut

section Scripts

variable {β : Type} (registry : Registry β) (file : String)

/-- The logical lines of a text without and with a comment on a line: those above, the one that ends
with the line, and those below, which are further down by the bytes of the comment. -/
theorem logicalLines_commented {t : LineCut} (h : t.EndsCommand) {blank : Char} {text : List Char}
    (hblank : WordScan.isSeparator blank = true) (single : '\n' ∉ text)
    (closed : (Text.dropEndWhile Text.isBlank text).getLast? ≠ some '\\') :
    ∃ upper l l' lower unfinished bytes,
      logicalLines t.source = (upper ++ l :: lower, unfinished) ∧
      logicalLines (t.adding (blank :: '#' :: text)) =
        (upper ++ l' :: lower.map (LogicalLine.below 0 bytes),
          unfinished.map (LogicalLine.below 0 bytes)) ∧
      l.line = t.number ∧ l'.line = t.number ∧
      l'.text = l.text ++ (t.spaces ++ blank :: '#' :: Text.dropEndWhile Text.isBlank text) := by
  have hmore : '\n' ∉ blank :: '#' :: text := by
    have hne : '\n' ≠ blank := by
      rintro rfl
      exact absurd hblank (by decide)
    simp [hne, single]
  have hcounts : isSkipped (content (t.raw [])) = false := h.content_raw ▸ h.counts
  have hends : continued? (content (t.raw [])) = none := h.content_raw ▸ h.ends
  have hcommented := LineCut.logicalLines_adding h hmore (h.counts_comment blank text)
    (h.ends_comment blank closed)
  rw [t.nextReader_eq_below, LineReader.readAll_below] at hcommented
  refine ⟨_, t.logicalLine [], t.logicalLine (blank :: '#' :: text), _, _,
    Text.byteLength (blank :: '#' :: text),
    LineCut.logicalLines_adding h List.not_mem_nil hcounts hends, hcommented,
    LineCut.logicalLine_line h, LineCut.logicalLine_line h, ?_⟩
  simp only [LineCut.logicalLine, t.reader.extend_text _ (t.raw []), h.content_raw_comment,
    h.content_raw, List.append_assoc]

/-- A comment at the end of a line is not read. Where a physical line ends a logical line that can
be divided into words, and has no white space at its end but spaces and tabs (and carriage returns,
which belong to the end of the line), a blank, a `#` and any text can be added before the end of the
line, as long as the text does not end in a backslash: the commands of the script are the same, and
so are the line, the kind and the message of its error. -/
theorem parse_commented {t : LineCut} (h : t.EndsCommand)
    (tokenizes : ∀ l ∈ (logicalLines t.source).1, l.line = t.number →
      ∃ words, splitWords l.text = .ok words)
    {blank : Char} {text : List Char} (hblank : WordScan.isSeparator blank = true)
    (single : '\n' ∉ text)
    (closed : (Text.dropEndWhile Text.isBlank text).getLast? ≠ some '\\') :
    (parse registry file (String.ofList (t.adding (blank :: '#' :: text)))).mapError
        ScriptError.unplaced =
      (parse registry file (String.ofList t.source)).mapError ScriptError.unplaced := by
  obtain ⟨upper, l, l', lower, unfinished, bytes, hsource, hcommented, hline, hline', htext⟩ :=
    logicalLines_commented h hblank single closed
  obtain ⟨words, hwords⟩ := tokenizes l (by simp [hsource]) hline
  have hcommand : l'.Agrees registry l := by
    have hwords' : splitWords l'.text = splitWords l.text := by
      rw [htext, hwords]
      exact splitWords_commented hwords h.spaces hblank _
    refine ⟨?_, hline'.trans hline.symm⟩
    unfold LogicalLine.command?
    rw [hwords', hline', hline]
  have hlower : List.Forall₂ (LogicalLine.Agrees registry)
      (lower.map (LogicalLine.below 0 bytes)) lower :=
    List.forall₂_map_left_iff.2 (List.forall₂_same.2 fun k _ => k.agrees_below registry bytes)
  have hlines : List.Forall₂ (LogicalLine.Agrees registry)
      (upper ++ l' :: lower.map (LogicalLine.below 0 bytes)) (upper ++ l :: lower) :=
    List.rel_append (List.forall₂_same.2 fun k _ => k.agrees_refl registry) (.cons hcommand hlower)
  have hagree := commandsOf_agrees registry file hlines
  have hunfinished : ∀ u : LogicalLine,
      ((u.below 0 bytes).error file .unfinishedLine).unplaced =
        (u.error file .unfinishedLine).unplaced :=
    fun u => LogicalLine.unplaced_error file rfl _
  unfold parse
  simp only [String.toList_ofList, hsource, hcommented]
  revert hagree
  cases commandsOf registry file (upper ++ l' :: lower.map (LogicalLine.below 0 bytes)) <;>
    cases commandsOf registry file (upper ++ l :: lower) <;> cases unfinished <;>
    simp [Except.mapError, hunfinished]

end Scripts

/-- Comments that are read. A comment that ends in a backslash joins the next line to it, so that
`touch` is lost; and a comment after a no-break space, which is trimmed at the end of a line but
does not separate words, makes the space a part of the verb. -/
theorem comment_changes_commands :
    (isSkipped (content "sync".toList) = false ∧ continued? (content "sync".toList) = none ∧
      logicalLines "sync\ntouch\n".toList =
        ([⟨"sync".toList, 1, 0, 4⟩, ⟨"touch".toList, 2, 5, 10⟩], none) ∧
      splitWords "sync".toList = .ok ["sync".toList] ∧
      (parse Verb.standard "x.t" "sync\ntouch\n").toOption.map (List.map Command.words) =
        some [["sync"], ["touch"]] ∧
      (parse Verb.standard "x.t" "sync # c\\\ntouch\n").toOption.map (List.map Command.words) =
        some [["sync"]]) ∧
    (isSkipped (content "sync\u00a0".toList) = false ∧
      continued? (content "sync\u00a0".toList) = none ∧
      logicalLines "sync\u00a0\n".toList = ([⟨"sync".toList, 1, 0, 6⟩], none) ∧
      (parse Verb.standard "x.t" "sync\u00a0\n").toOption.map (List.map Command.words) =
        some [["sync"]] ∧
      parse Verb.standard "x.t" "sync\u00a0 # c\n" =
        .error ⟨"x.t", 1, ⟨0, 10⟩, .unknownVerb "sync\u00a0"⟩) :=
  ⟨⟨by decide, by decide, by decide, by decide, rfl, rfl⟩,
    by decide, by decide, by decide, rfl, rfl⟩

/-- A comment on the last line of a command that is continued over a comment, in a script whose
next line has an unknown verb. -/
theorem parse_commented_continued :
    (parse Verb.standard "x.t" "mkfile \\\r\n# é\r\n a \t# b\\ c \r\nboo\n").mapError
        ScriptError.unplaced =
      (parse Verb.standard "x.t" "mkfile \\\r\n# é\r\n a \r\nboo\n").mapError
        ScriptError.unplaced ∧
    (parse Verb.standard "x.t" "mkfile \\\r\n# é\r\n a \r\nboo\n").mapError
        ScriptError.unplaced = .error (4, .unknownVerb "boo", "x.t:4: unknown command boo") := by
  let t : LineCut :=
    ⟨"mkfile \\\r\n# é\r\n".toList, " a".toList, " ".toList, "\r".toList, "\nboo\n".toList⟩
  have hbody : Text.isBlank 'a' = false := by decide
  have hspace : WordScan.isSeparator ' ' = true := by decide
  have h : t.EndsCommand :=
    ⟨by simp [t], by decide, by simp [t, hbody], by decide, by decide, by simp [t, hspace],
      by simp [t], by simp [t]⟩
  have hlines : (logicalLines t.source).1 =
      [⟨"mkfile a".toList, 3, 0, 19⟩, ⟨"boo".toList, 4, 21, 24⟩] := by decide
  have tokenizes : ∀ l ∈ (logicalLines t.source).1, l.line = t.number →
      ∃ words, splitWords l.text = .ok words := by
    intro l hl hnumber
    rw [hlines] at hl
    rcases List.mem_cons.1 hl with rfl | hl
    · exact ⟨["mkfile".toList, "a".toList], by decide⟩
    · obtain rfl := List.mem_singleton.1 hl
      exact absurd hnumber (by decide)
  have hblank : WordScan.isSeparator '\t' = true := by decide
  have single : '\n' ∉ " b\\ c ".toList := by decide
  have hsource : String.ofList t.source = "mkfile \\\r\n# é\r\n a \r\nboo\n" := by decide
  have hcommented : String.ofList (t.adding ('\t' :: '#' :: " b\\ c ".toList)) =
      "mkfile \\\r\n# é\r\n a \t# b\\ c \r\nboo\n" := by decide
  have hsame := parse_commented Verb.standard "x.t" h tokenizes hblank single (by decide)
  rw [hsource, hcommented] at hsame
  exact ⟨hsame, rfl⟩

end Script

end TwinTrees
