import TwinTrees.Proofs.Script.Layout

/-!
# Where logical lines stand

Each logical line of a script comes from a stretch of its physical lines, the first and the last of
which count (`Stretch`): those of its lines that count all continue, the last one apart, and so none
of them is a line of another stretch. What the reader of lines carries is the stretch that is not yet
complete, with the lines after it that do not count (`LineReader.HasRead`). So the numbers of a
logical line give the bytes and the last line of its stretch (`logicalLines_located`), also in an
error, which stands at the first logical line that is no command.
-/

namespace TwinTrees.Script

/-- The line has content and is no comment. -/
def counts (raw : List Char) : Bool := !isSkipped (content raw)

/-- The line goes on with the next one that counts. -/
def continues (raw : List Char) : Bool := (content raw).getLast? == some '\\'

/-- No line goes on below these ones. -/
def Closed (raws : List (List Char)) : Prop :=
  ∀ raw ∈ (raws.filter counts).getLast?, continues raw = false

/-- What lines say that go on: the contents of those that count, without the backslashes. -/
def saidBy (raws : List (List Char)) : List Char :=
  (raws.filter counts).flatMap fun raw => (content raw).dropLast

/-- The physical lines of one command: the lines above them, its lines before the last one, and the
last one. -/
structure Stretch where
  above : List (List Char)
  front : List (List Char)
  last : List Char
  closed : Closed above
  first : ∀ raw ∈ (front ++ [last]).head?, counts raw = true
  goesOn : ∀ raw ∈ front, counts raw = true → continues raw = true
  ends : counts last = true

namespace Stretch

variable (x : Stretch)

def lines : List (List Char) := x.front ++ [x.last]

/-- The lines as they are written, without the characters that end the last one. -/
def written : List Char := x.front.flatten ++ withoutLineEnd x.last

/-- The contents of the lines that count, without the backslashes that continue them. -/
def said : List Char := saidBy x.front ++ (continued? (content x.last)).getD (content x.last)

/-- The logical line is what the stretch says, and its numbers say where the stretch is. -/
structure Gives (l : LogicalLine) : Prop where
  text : l.text = x.said
  line : l.line = (x.above ++ x.front).length + 1
  start : l.start = Text.byteLength x.above.flatten
  stop : l.stop = Text.byteLength (x.above.flatten ++ x.written)

end Stretch

/-! ## Lines that count -/

variable {raw : List Char} {raws seen : List (List Char)} {l : LogicalLine} {r : LineReader}

theorem closed_append_skipped (h : Closed seen) (skipped : ∀ raw ∈ raws, counts raw = false) :
    Closed (seen ++ raws) := by
  have hnone : raws.filter counts = [] := List.filter_eq_nil_iff.2 fun raw hraw => by simp [skipped raw hraw]
  rwa [Closed, List.filter_append, hnone, List.append_nil]

theorem closed_of_last (hraw : counts raw = true) (hends : continues raw = false) :
    Closed (seen ++ [raw]) := by
  intro raw' h
  rw [List.filter_append, List.filter_cons_of_pos hraw, List.filter_nil, List.getLast?_concat] at h
  cases h
  exact hends

theorem saidBy_append (raws raws' : List (List Char)) :
    saidBy (raws ++ raws') = saidBy raws ++ saidBy raws' := by
  rw [saidBy, List.filter_append, List.flatMap_append]
  rfl

theorem saidBy_skipped (skipped : ∀ raw ∈ raws, counts raw = false) : saidBy raws = [] := by
  have hnone : raws.filter counts = [] := List.filter_eq_nil_iff.2 fun raw hraw => by simp [skipped raw hraw]
  rw [saidBy, hnone]
  rfl

theorem saidBy_singleton (hraw : counts raw = true) : saidBy [raw] = (content raw).dropLast := by
  rw [saidBy, List.filter_cons_of_pos hraw]
  simp

theorem continued?_eq (raw : List Char) : continued? (content raw) =
    if continues raw = true then some (content raw).dropLast else none := by
  simp [continued?, continues]

/-- What a stretch whose last line goes on says. -/
theorem Stretch.said_of_continues (x : Stretch) (h : continues x.last = true) :
    x.said = saidBy x.lines := by
  rw [Stretch.said, continued?_eq, if_pos h, Stretch.lines, saidBy_append, saidBy_singleton x.ends]
  rfl

theorem exists_withoutLineEnd_append (raw : List Char) :
    ∃ ending, raw = withoutLineEnd raw ++ ending ∧ ∀ c ∈ ending, c = '\n' ∨ c = '\r' := by
  obtain ⟨ending, hraw, hending⟩ :=
    Text.exists_dropEndWhile_append (fun c => c == '\n' || c == '\r') raw
  exact ⟨ending, hraw, fun c hc => by simpa using hending c hc⟩

theorem byteLength_withoutLineEnd_le (raw : List Char) :
    Text.byteLength (withoutLineEnd raw) ≤ Text.byteLength raw := by
  obtain ⟨ending, hraw, -⟩ := exists_withoutLineEnd_append raw
  have hlength := congrArg Text.byteLength hraw
  rw [Text.byteLength_append] at hlength
  exact hlength ▸ Nat.le_add_right _ _

/-- A line that counts is more than its end. -/
theorem withoutLineEnd_ne_nil (hraw : counts raw = true) : withoutLineEnd raw ≠ [] := by
  intro hnil
  obtain ⟨ending, happend, hending⟩ := exists_withoutLineEnd_append raw
  rw [hnil, List.nil_append] at happend
  have hblank : ∀ c ∈ raw, Text.isBlank c = true := by
    intro c hc
    obtain rfl | rfl := hending c (happend ▸ hc)
    all_goals decide
  have hcontent : content raw = [] := by
    have htrim : Text.trim (raw ++ ([] ++ [])) = Text.trim [] := Text.trim_append hblank nofun
    rwa [List.append_nil, List.append_nil] at htrim
  rw [counts, hcontent] at hraw
  cases hraw

/-! ## What the reader carries -/

/-- The reader has read these lines. What is pending is a stretch of them whose last line goes on;
below it none counts. -/
structure LineReader.HasRead (r : LineReader) (seen : List (List Char)) : Prop where
  line : r.line = seen.length
  offset : r.offset = Text.byteLength seen.flatten
  closed : r.pending = none → Closed seen
  pending : ∀ l, r.pending = some l → ∃ (x : Stretch) (skipped : List (List Char)), x.Gives l ∧
    seen = x.above ++ (x.lines ++ skipped) ∧ (∀ raw ∈ skipped, counts raw = false) ∧
    continues x.last = true

namespace LineReader

theorem hasRead_start : start.HasRead [] where
  line := rfl
  offset := rfl
  closed _ := nofun
  pending := nofun

/-- A line that counts is the last one of a stretch: of the one that is pending, or of a new one. -/
theorem HasRead.extend (h : r.HasRead seen) (hraw : counts raw = true) :
    ∃ x : Stretch, x.above ++ x.front = seen ∧ x.last = raw ∧ (r.extend raw).text = saidBy x.front ∧
      ∀ text, text = x.said → x.Gives { r.extend raw with text } := by
  have hstop : r.offset + Text.byteLength (withoutLineEnd raw) =
      Text.byteLength (seen.flatten ++ withoutLineEnd raw) := by
    rw [h.offset, Text.byteLength_append]
  unfold LineReader.extend
  cases hpending : r.pending with
  | none =>
    refine ⟨⟨seen, [], raw, h.closed hpending, ?_, nofun, hraw⟩, List.append_nil _, rfl, rfl,
      fun text htext => ⟨htext, ?_, h.offset, hstop⟩⟩
    · rintro _ ⟨⟩
      exact hraw
    · rw [List.append_nil]
      exact congrArg (· + 1) h.line
  | some l =>
    obtain ⟨y, skipped, hy, rfl, hskipped, hcontinues⟩ := h.pending l hpending
    have hsaid : l.text = saidBy (y.lines ++ skipped) := by
      rw [hy.text, y.said_of_continues hcontinues, saidBy_append, saidBy_skipped hskipped,
        List.append_nil]
    refine ⟨⟨y.above, y.lines ++ skipped, raw, y.closed, ?_, ?_, hraw⟩, rfl, rfl, hsaid,
      fun text htext => ⟨htext, congrArg (· + 1) h.line, hy.start, ?_⟩⟩
    · intro raw' hraw'
      refine y.first raw' ?_
      rwa [Stretch.lines, List.append_assoc, List.head?_append_of_ne_nil _ (by simp)] at hraw'
    · intro raw' hraw' hcounts
      obtain hraw' | hraw' := List.mem_append.1 hraw'
      · obtain hfront | hlast := List.mem_append.1 hraw'
        · exact y.goesOn raw' hfront hcounts
        · rwa [List.mem_singleton.1 hlast]
      · rw [hskipped raw' hraw'] at hcounts
        cases hcounts
    · rw [List.flatten_append, List.append_assoc] at hstop
      exact hstop

/-- Reading one more line. A logical line that it completes comes from a stretch that ends with it. -/
theorem HasRead.read (h : r.HasRead seen) (raw : List Char) :
    (r.read raw).1.HasRead (seen ++ [raw]) ∧
      ∀ l, (r.read raw).2 = some l → ∃ x : Stretch, x.Gives l ∧
        seen ++ [raw] = x.above ++ x.lines ∧ continues x.last = false := by
  have hline : r.line + 1 = (seen ++ [raw]).length := by rw [h.line, List.length_append]; rfl
  have hoffset : r.offset + Text.byteLength raw = Text.byteLength (seen ++ [raw]).flatten := by
    rw [h.offset, List.flatten_append, Text.byteLength_append, List.flatten_singleton]
  by_cases hskip : isSkipped (content raw) = true
  · have hraw : ∀ raw' ∈ [raw], counts raw' = false :=
      List.forall_mem_singleton.2 (by rw [counts, hskip]; rfl)
    unfold LineReader.read
    simp only [if_pos hskip]
    refine ⟨⟨hline, hoffset, fun hnone => closed_append_skipped (h.closed hnone) hraw, ?_⟩, nofun⟩
    intro l hl
    obtain ⟨x, skipped, hx, rfl, hskipped, hcontinues⟩ := h.pending l hl
    refine ⟨x, skipped ++ [raw], hx, by simp, ?_, hcontinues⟩
    exact List.forall_mem_append.2 ⟨hskipped, hraw⟩
  · have hraw : counts raw = true := by rw [counts, Bool.eq_false_iff.2 hskip]; rfl
    obtain ⟨x, rfl, rfl, htext, hgives⟩ := h.extend hraw
    have hlines : x.above ++ x.front ++ [x.last] = x.above ++ x.lines := List.append_assoc ..
    unfold LineReader.read
    simp only [if_neg hskip, continued?_eq]
    cases hcontinues : continues x.last with
    | true =>
      refine ⟨⟨hline, hoffset, nofun, ?_⟩, nofun⟩
      rintro _ ⟨⟩
      refine ⟨x, [], hgives _ ?_, by rw [List.append_nil, hlines], nofun, hcontinues⟩
      rw [htext, Stretch.said, continued?_eq, if_pos hcontinues]
      rfl
    | false =>
      refine ⟨⟨hline, hoffset, fun _ => closed_of_last hraw hcontinues, nofun⟩, ?_⟩
      rintro _ ⟨⟩
      refine ⟨x, hgives _ ?_, hlines, hcontinues⟩
      rw [htext, Stretch.said, continued?_eq, hcontinues]
      rfl

/-- Reading lines. Each logical line that they complete comes from a stretch of the lines. -/
theorem HasRead.readAll (h : r.HasRead seen) (raws : List (List Char)) :
    (r.readAll raws).2.HasRead (seen ++ raws) ∧
      ∀ l ∈ (r.readAll raws).1, ∃ (x : Stretch) (below : List (List Char)), x.Gives l ∧
        seen ++ raws = x.above ++ (x.lines ++ below) ∧ continues x.last = false := by
  induction raws generalizing r seen with
  | nil =>
    rw [List.append_nil]
    exact ⟨h, nofun⟩
  | cons raw raws ih =>
    obtain ⟨hnext, hdone⟩ := h.read raw
    obtain ⟨hlast, hlines⟩ := ih hnext
    rw [readAll_cons, List.append_cons]
    refine ⟨hlast, fun l hl => ?_⟩
    obtain hl | hl := List.mem_append.1 hl
    · obtain ⟨x, hx, hlines, hends⟩ := hdone l (Option.mem_toList.1 hl)
      exact ⟨x, raws, hx, by rw [hlines, List.append_assoc], hends⟩
    · exact hlines l hl

/-! ## Places that increase -/

/-- Everything that the reader has not completed stands below a place. -/
structure Past (r : LineReader) (byte number : Nat) : Prop where
  offset : byte ≤ r.offset
  line : number ≤ r.line
  pending : ∀ l, r.pending = some l → byte ≤ l.start ∧ number < l.line

/-- A line that the reader completes stands below the place that the reader has passed, and then the
reader has passed the line. -/
theorem Past.read {byte number : Nat} (h : r.Past byte number) (raw : List Char) :
    (r.read raw).1.Past byte number ∧
      ∀ l, (r.read raw).2 = some l →
        byte ≤ l.start ∧ number < l.line ∧ (r.read raw).1.Past l.stop l.line := by
  have hoffset : byte ≤ r.offset + Text.byteLength raw := Nat.le_add_right_of_le h.offset
  have hline : number < r.line + 1 := Nat.lt_succ_of_le h.line
  have hextend : byte ≤ (r.extend raw).start ∧ (r.extend raw).line = r.line + 1 ∧
      (r.extend raw).stop ≤ r.offset + Text.byteLength raw := by
    have hstop := Nat.add_le_add_left (byteLength_withoutLineEnd_le raw) r.offset
    unfold LineReader.extend
    cases hpending : r.pending with
    | none => exact ⟨h.offset, rfl, hstop⟩
    | some l => exact ⟨(h.pending l hpending).1, rfl, hstop⟩
  obtain ⟨hstart, hnumber, hstop⟩ := hextend
  unfold LineReader.read
  simp only
  split
  · exact ⟨⟨hoffset, hline.le, h.pending⟩, nofun⟩
  · split
    · refine ⟨⟨hoffset, hline.le, ?_⟩, nofun⟩
      rintro _ ⟨⟩
      exact ⟨hstart, hnumber ▸ hline⟩
    · refine ⟨⟨hoffset, hline.le, nofun⟩, ?_⟩
      rintro _ ⟨⟩
      exact ⟨hstart, hnumber ▸ hline, hstop, hnumber.le, nofun⟩

/-- The logical lines that are completed and the one that is not, in their order, stand one below the
other. -/
theorem Past.readAll {byte number : Nat} (h : r.Past byte number) (raws : List (List Char)) :
    (∀ l ∈ (r.readAll raws).1 ++ (r.readAll raws).2.pending.toList, byte ≤ l.start ∧ number < l.line) ∧
      ((r.readAll raws).1 ++ (r.readAll raws).2.pending.toList).Pairwise
        fun a b => a.stop ≤ b.start ∧ a.line < b.line := by
  induction raws generalizing r byte number with
  | nil =>
    refine ⟨fun l hl => h.pending l (Option.mem_toList.1 hl), ?_⟩
    change r.pending.toList.Pairwise _
    cases r.pending with
    | none => exact .nil
    | some l => exact List.pairwise_singleton _ l
  | cons raw raws ih =>
    obtain ⟨hnext, hdone⟩ := h.read raw
    obtain ⟨hbelow, hpairwise⟩ := ih hnext
    rw [readAll_cons]
    cases hread : (r.read raw).2 with
    | none => exact ⟨hbelow, hpairwise⟩
    | some l =>
      obtain ⟨hstart, hline, hpast⟩ := hdone l hread
      exact ⟨List.forall_mem_cons.2 ⟨⟨hstart, hline⟩, hbelow⟩,
        List.pairwise_cons.2 ⟨(ih hpast).1, hpairwise⟩⟩

end LineReader

/-! ## Places in the source -/

/-- Above a line of a text there are whole lines. -/
theorem whole_of_physicalLines {text : List Char} {above below : List (List Char)}
    (h : physicalLines text = above ++ below) (hbelow : below ≠ []) :
    (∀ c ∈ above.flatten.getLast?, c = '\n') ∧ above.flatten.count '\n' = above.length := by
  induction text using lines_induction generalizing above with
  | last line single =>
    obtain rfl : above = [] := by
      by_cases hline : line = []
      · subst hline
        exact absurd (List.nil_eq_append_iff.1 h).2 hbelow
      · rw [physicalLines_of_noNewline single hline] at h
        obtain ⟨habove, -⟩ | ⟨-, hnil⟩ := List.singleton_eq_append_iff.1 h
        · exact habove
        · exact absurd hnil hbelow
    exact ⟨nofun, rfl⟩
  | more line text single ih =>
    cases above with
    | nil => exact ⟨nofun, rfl⟩
    | cons first above =>
      rw [physicalLines_append_newline single] at h
      obtain ⟨rfl, hrest⟩ := List.cons.inj h
      obtain ⟨hends, hcount⟩ := ih hrest
      have hone : (line ++ ['\n']).count '\n' = 1 := by simp [List.count_eq_zero_of_not_mem single]
      rw [List.flatten_cons, List.getLast?_append, List.count_append, hcount, hone, List.length_cons,
        Nat.add_comm 1]
      refine ⟨fun c hc => ?_, rfl⟩
      cases hlast : above.flatten.getLast? with
      | none =>
        rw [hlast, Option.none_or, List.getLast?_concat] at hc
        exact (Option.some.inj hc).symm
      | some d =>
        rw [hlast, Option.some_or] at hc
        exact hends c (hlast.trans hc)

/-- All the logical lines of a script, the one that is not finished too. -/
def allLines (source : List Char) : List LogicalLine :=
  (logicalLines source).1 ++ (logicalLines source).2.toList

/-- The logical line is what a stretch of the source says, and its numbers are where this stretch
is. -/
structure LogicalLine.StandsAt (l : LogicalLine) (source : String) (x : Stretch)
    (below : List (List Char)) : Prop where
  lines : physicalLines source.toList = x.above ++ (x.lines ++ below)
  text : l.text = x.said
  /-- Its first line is at the start of the source or after a newline. -/
  startsLine : ∀ c ∈ x.above.flatten.getLast?, c = '\n'
  start : l.start = (String.ofList x.above.flatten).utf8ByteSize
  startValid : String.Pos.Raw.IsValid source ⟨l.start⟩
  stopValid : String.Pos.Raw.IsValid source ⟨l.stop⟩
  nonempty : l.start < l.stop
  inside : l.stop ≤ source.utf8ByteSize
  slice : String.Pos.Raw.extract source ⟨l.start⟩ ⟨l.stop⟩ = String.ofList x.written
  /-- The newlines above its last line are counted. -/
  line : l.line = (x.above ++ x.front).flatten.count '\n' + 1

/-- The numbers of a stretch are places in the source that it is a stretch of. -/
theorem Stretch.Gives.standsAt {x : Stretch} {source : String} {below : List (List Char)}
    (h : x.Gives l) (hlines : physicalLines source.toList = x.above ++ (x.lines ++ below)) :
    l.StandsAt source x below := by
  obtain ⟨ending, hlast, -⟩ := exists_withoutLineEnd_append x.last
  obtain ⟨after, hsource⟩ : ∃ after, source = String.ofList (x.above.flatten ++ x.written ++ after) := by
    refine ⟨ending ++ below.flatten, ?_⟩
    have hflatten := flatten_physicalLines source.toList
    rw [hlines, Stretch.lines, List.flatten_append, List.flatten_append, List.flatten_append,
      List.flatten_singleton, hlast] at hflatten
    rw [← String.ofList_toList (s := source), ← hflatten, Stretch.written]
    simp
  have hwritten : 0 < String.utf8Len x.written := by
    rw [← Text.byteLength_eq_utf8Len]
    exact Text.byteLength_pos fun hnil => withoutLineEnd_ne_nil x.ends (List.append_eq_nil_iff.1 hnil).2
  have hstart : l.start = String.utf8Len x.above.flatten := by
    rw [h.start, Text.byteLength_eq_utf8Len]
  have hstop : l.stop = String.utf8Len x.above.flatten + String.utf8Len x.written := by
    rw [h.stop, Text.byteLength_eq_utf8Len, String.utf8Len_append]
  have hlinesLast : physicalLines source.toList = x.above ++ x.front ++ (x.last :: below) := by
    rw [hlines, Stretch.lines]
    simp
  have hsplit : source = String.ofList x.above.flatten ++ String.ofList (x.written ++ after) := by
    rw [← String.ofList_append, ← List.append_assoc, hsource]
  have hsplit' : source = String.ofList (x.above.flatten ++ x.written) ++ String.ofList after := by
    rw [← String.ofList_append, hsource]
  refine {
    lines := hlines
    text := h.text
    startsLine := (whole_of_physicalLines hlines (by simp [Stretch.lines])).1
    start := by rw [hstart, String.utf8ByteSize_ofList]
    startValid := ?_
    stopValid := ?_
    nonempty := ?_
    inside := ?_
    slice := ?_
    line := ?_ }
  · rw [String.Pos.Raw.isValid_iff_exists_append]
    exact ⟨_, _, hsplit, by rw [String.rawEndPos_ofList, hstart]⟩
  · rw [String.Pos.Raw.isValid_iff_exists_append]
    exact ⟨_, _, hsplit', by rw [String.rawEndPos_ofList, String.utf8Len_append, hstop]⟩
  · rw [hstart, hstop]
    exact Nat.lt_add_of_pos_right hwritten
  · rw [hstop, hsource, String.utf8ByteSize_ofList, String.utf8Len_append, String.utf8Len_append]
    exact Nat.le_add_right _ _
  · rw [hstart, hstop, hsource]
    exact String.extract_of_valid _ _ _
  · rw [h.line, (whole_of_physicalLines hlinesLast (List.cons_ne_nil _ _)).2]

/-! ## Errors -/

section Errors

variable {β : Type} (registry : Registry β) {file : String}

/-- An error comes from the first of the lines that is no command. -/
theorem exists_of_commandsOf_error {ls : List LogicalLine} {e : ScriptError}
    (h : commandsOf registry file ls = .error e) :
    ∃ before l after fault, ls = before ++ l :: after ∧
      (∃ commands, commandsOf registry file before = .ok commands) ∧
      l.command? registry = .error fault ∧ e = l.error file fault := by
  induction ls with
  | nil => cases h
  | cons l ls ih =>
    rw [commandsOf] at h
    cases hl : l.command? registry with
    | error fault =>
      simp only [hl, Except.error.injEq] at h
      exact ⟨[], l, ls, fault, rfl, ⟨[], rfl⟩, hl, h.symm⟩
    | ok command =>
      cases hrest : commandsOf registry file ls with
      | ok rest => simp [hl, hrest, Except.map] at h
      | error e' =>
        simp only [hl, hrest, Except.map, Except.error.injEq] at h
        obtain rfl := h
        obtain ⟨before, l', after, fault, rfl, ⟨commands, hcommands⟩, hl', he⟩ := ih hrest
        refine ⟨l :: before, l', after, fault, rfl, ⟨command :: commands, ?_⟩, hl', he⟩
        rw [commandsOf, hl, hcommands]
        rfl

/-- An error of a script comes from the first logical line that is no command, or from the one that
is not finished if all the others are commands. -/
theorem exists_of_parse_error {source : String} {e : ScriptError}
    (h : parse registry file source = .error e) :
    ∃ before l after fault, allLines source.toList = before ++ l :: after ∧
      (∃ commands, commandsOf registry file before = .ok commands) ∧
      (l ∈ (logicalLines source.toList).1 ∧ l.command? registry = .error fault ∨
        (logicalLines source.toList).2 = some l ∧ fault = .unfinishedLine) ∧
      e = l.error file fault := by
  unfold allLines
  cases hcommands : commandsOf registry file (logicalLines source.toList).1 with
  | error e' =>
    have he : e' = e := by simpa [parse, hcommands] using h
    obtain ⟨before, l, after, fault, hlines, hbefore, hl, he'⟩ :=
      exists_of_commandsOf_error registry hcommands
    refine ⟨before, l, after ++ (logicalLines source.toList).2.toList, fault, ?_, hbefore,
      .inl ⟨?_, hl⟩, he ▸ he'⟩
    · rw [hlines, List.append_assoc, List.cons_append]
    · rw [hlines]
      exact List.mem_append_right _ List.mem_cons_self
  | ok commands =>
    cases hunfinished : (logicalLines source.toList).2 with
    | none => simp [parse, hcommands, hunfinished] at h
    | some l =>
      have he : l.error file .unfinishedLine = e := by simpa [parse, hcommands, hunfinished] using h
      exact ⟨_, l, [], .unfinishedLine, rfl, ⟨commands, hcommands⟩, .inr ⟨rfl, rfl⟩, he.symm⟩

end Errors

/-- Every logical line stands at a stretch of the source, one below the other, and it is finished
unless it goes on with nothing that counts below. An error of the script is about the first logical
line that is no command: its line and its bytes are those of this logical line. -/
theorem logicalLines_located {β : Type} (registry : Registry β) (file source : String) :
    (∀ l ∈ (logicalLines source.toList).1, ∃ x below, l.StandsAt source x below ∧
      continues x.last = false) ∧
    (∀ l, (logicalLines source.toList).2 = some l → ∃ x below, l.StandsAt source x below ∧
      continues x.last = true ∧ ∀ raw ∈ below, counts raw = false) ∧
    (allLines source.toList).Pairwise (fun a b => a.stop ≤ b.start ∧ a.line < b.line) ∧
    ∀ e, parse registry file source = .error e →
      ∃ before l after, allLines source.toList = before ++ l :: after ∧
        (∃ commands, commandsOf registry file before = .ok commands) ∧
        (l ∈ (logicalLines source.toList).1 ∧ l.command? registry = .error e.fault ∨
          (logicalLines source.toList).2 = some l ∧ e.fault = .unfinishedLine) ∧
        e.file = file ∧ e.line = l.line ∧ e.span.offset = l.start ∧
        e.span.offset + e.span.length = l.stop := by
  obtain ⟨hlast, hlines⟩ := LineReader.hasRead_start.readAll (physicalLines source.toList)
  have hfinished : ∀ l ∈ (logicalLines source.toList).1, ∃ x below, l.StandsAt source x below ∧
      continues x.last = false := by
    intro l hl
    obtain ⟨x, below, hgives, hstretch, hends⟩ := hlines l hl
    exact ⟨x, below, hgives.standsAt hstretch, hends⟩
  have hunfinished : ∀ l, (logicalLines source.toList).2 = some l → ∃ x below,
      l.StandsAt source x below ∧ continues x.last = true ∧ ∀ raw ∈ below, counts raw = false := by
    intro l hl
    obtain ⟨x, skipped, hgives, hstretch, hskipped, hcontinues⟩ := hlast.pending l hl
    exact ⟨x, skipped, hgives.standsAt hstretch, hcontinues, hskipped⟩
  have hpast : LineReader.start.Past 0 0 := ⟨Nat.le_refl _, Nat.le_refl _, nofun⟩
  refine ⟨hfinished, hunfinished, (hpast.readAll _).2, fun e he => ?_⟩
  obtain ⟨before, l, after, fault, hsplit, hbefore, hl, rfl⟩ := exists_of_parse_error registry he
  have hnonempty : l.start < l.stop := by
    obtain ⟨hmem, -⟩ | ⟨hpending, -⟩ := hl
    · obtain ⟨x, below, hstands, -⟩ := hfinished l hmem
      exact hstands.nonempty
    · obtain ⟨x, below, hstands, -⟩ := hunfinished l hpending
      exact hstands.nonempty
  exact ⟨before, l, after, hsplit, hbefore, hl, rfl, rfl, rfl, Nat.add_sub_cancel' hnonempty.le⟩

/-- A command over three lines with a comment in the middle, each with two characters at its end, and
a line below that is not finished. The verb of the command is unknown, and the error is about all the
lines of the command and none below. -/
theorem logicalLines_located_unknown :
    let source := "é\\\r\n# à\r\n b\r\nsync \\\r\n"
    let first : LogicalLine := ⟨"éb".toList, 3, 0, 13⟩
    let unfinished : LogicalLine := ⟨"sync ".toList, 4, 15, 21⟩
    logicalLines source.toList = ([first], some unfinished) ∧
      (∃ x below, first.StandsAt source x below ∧ continues x.last = false) ∧
      (∃ x below, unfinished.StandsAt source x below ∧ continues x.last = true ∧
        ∀ raw ∈ below, counts raw = false) ∧
      (first.stop ≤ unfinished.start ∧ first.line < unfinished.line) ∧
      ∃ e, parse Verb.standard "a.t" source = .error e ∧ e.fault = .unknownVerb "éb" ∧
        e.line = first.line ∧ e.span.offset = first.start ∧
        e.span.offset + e.span.length = first.stop := by
  intro source first unfinished
  have hlines : logicalLines source.toList = ([first], some unfinished) := by decide
  have hall : allLines source.toList = [first, unfinished] := by rw [allLines, hlines]; rfl
  obtain ⟨hfinished, hunfinished, hpairwise, herror⟩ :=
    logicalLines_located Verb.standard "a.t" source
  rw [hall] at hpairwise
  obtain ⟨e, he, hfault⟩ : ∃ e, parse Verb.standard "a.t" source = .error e ∧
      e.fault = .unknownVerb "éb" := by
    unfold source
    exact ⟨_, rfl, rfl⟩
  obtain ⟨-, l, -, -, -, hl, -, hline, hoffset, hstop⟩ := herror e he
  obtain rfl : l = first := by
    obtain ⟨hmem, -⟩ | ⟨-, hnot⟩ := hl
    · rw [hlines] at hmem
      exact List.mem_singleton.1 hmem
    · rw [hfault] at hnot
      cases hnot
  exact ⟨hlines, hfinished first (hlines ▸ List.mem_cons_self), hunfinished unfinished (hlines ▸ rfl),
    List.rel_of_pairwise_cons hpairwise List.mem_cons_self, e, he, hfault, hline, hoffset, hstop⟩

end TwinTrees.Script
