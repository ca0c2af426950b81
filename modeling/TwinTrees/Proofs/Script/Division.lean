import TwinTrees.Proofs.Script.Comments
import TwinTrees.Proofs.Script.Grammar

/-!
# The grammar and the scan

The scan of a line and its grammar give the same words and refuse the same lines at the same byte
(`divide_eq_splitWords`).

The pieces of a word are matched one after the other and never given back, so a parse stops for good
where a piece is opened and not closed (`Stuck`). There all later alternatives fail at the place
where the piece starts. The only rules that fail further on are those inside an open double quote,
and the last place at which they are tried is the end of the line or a backslash with nothing after
it: the places at which the scan gives up.
-/

namespace TwinTrees.Script.LineGrammar

open Peg

/-! ## Pieces -/

/-- A piece is opened at a place and not closed, and the scan of what is left gives up at byte
`stop`. -/
structure Stuck (rest : List Char) (offset stop : Nat) : Prop where
  opens : ∃ c text, rest = c :: text ∧ (c = '\'' ∨ c = '"' ∨ c = '\\')
  offset_le : offset ≤ stop
  scan : ∀ current finished,
    (WordScan.run ⟨.inWord, offset, current, finished⟩ rest).finish = .error ⟨stop⟩

theorem Stuck.opens_word {rest : List Char} {offset stop : Nat} (h : Stuck rest offset stop) :
    ∃ c text, rest = c :: text ∧ WordScan.isSeparator c = false ∧ c ≠ '#' := by
  obtain ⟨c, text, hp, hc⟩ := h.opens
  refine ⟨c, text, hp, ?_⟩
  rcases hc with rfl | rfl | rfl <;> decide

/-- What a piece comes to. -/
inductive PieceResult (p : Place) : Result RuleName → Prop
  | read {b : Branch RuleName} {next : Place}
    (opens : ∃ c rest, p.rest = c :: rest ∧ WordScan.isSeparator c = false)
    (shorter : next.rest.length < p.rest.length) (furthest : next.furthest ≤ next.offset)
    (adds : Adds .inWord p next (pieceText b)) : PieceResult p (.matched [b] next)
  | stuck {stop : Nat} (h : Stuck p.rest p.offset stop) : PieceResult p (.failed stop)
  | absent (h : ∀ c ∈ p.rest.head?, WordScan.isSeparator c = true) :
    PieceResult p (.failed p.offset)

/-! The alternatives at a place where a rule has failed already: those that cannot start there fail
there as well, which adds nothing to the report. -/

section Noted

variable {p : Place} (noted : p.offset ≤ p.furthest)
include noted

theorem doubleQuoted_failed (hp : p.rest.head? ≠ some '"') :
    doubleQuoted.parse .outside p = .failed p.furthest :=
  (parse_quoted_failed _ hp).trans (congrArg _ (Nat.max_eq_left noted))

theorem escaped_failed (hp : ∀ c rest, p.rest ≠ '\\' :: c :: rest) :
    escaped.parse .outside p = .failed p.furthest :=
  (parse_escape_failed _ hp).trans (congrArg _ (Nat.max_eq_left noted))

theorem bare_failed (hp : ∀ c ∈ p.rest.head?, isBare c = false) :
    bare.parse .outside p = .failed p.furthest :=
  (parse_bare_failed hp).trans (congrArg _ (Nat.max_eq_left noted))

theorem escaped_or_bare_failed (hescape : ∀ c rest, p.rest ≠ '\\' :: c :: rest)
    (hbare : ∀ c ∈ p.rest.head?, isBare c = false) :
    (Expr.choice escaped bare).parse .outside p = .failed p.furthest :=
  (parse_choice_right (escaped_failed noted hescape)).trans (bare_failed noted hbare)

theorem all_but_single_failed (hdouble : p.rest.head? ≠ some '"')
    (hescape : ∀ c rest, p.rest ≠ '\\' :: c :: rest)
    (hbare : ∀ c ∈ p.rest.head?, isBare c = false) :
    (Expr.choice doubleQuoted (.choice escaped bare)).parse .outside p = .failed p.furthest :=
  (parse_choice_right (doubleQuoted_failed noted hdouble)).trans
    (escaped_or_bare_failed noted hescape hbare)

end Noted

section Piece

variable {p : Place} {rest : List Char} (h : p.furthest ≤ p.offset)
include h

/-- Without a single quote the other alternatives are tried, at a place that is noted. -/
theorem piece_not_single (hp : p.rest.head? ≠ some '\'') : piece.parse .outside p =
    (Expr.choice doubleQuoted (.choice escaped bare)).parse .outside
      { p with furthest := p.offset } := by
  have hfailed : singleQuoted.parse .outside p = .failed p.offset :=
    (parse_quoted_failed _ hp).trans (congrArg _ (Nat.max_eq_right h))
  exact parse_choice_right hfailed

theorem piece_single (hp : p.rest = '\'' :: rest) : PieceResult p (piece.parse .outside p) := by
  let opened := p.after '\'' rest
  have htext : singleText.parse .outside opened = _ := parse_singleText opened
  have hadds := Adds.skip (fun offset _ _ _ h => run_single p.offset offset h) opened
  have hstop := Place.head?_skip (p := opened) (q := isSingle)
  have hle : (opened.skip isSingle).rest.length ≤ rest.length := hadds.length_le
  cases hclose : (opened.skip isSingle).rest with
  | cons c after =>
    rw [hclose] at hstop hle
    obtain rfl : c = '\'' := by simpa [isSingle] using hstop c rfl
    obtain ⟨text, hparse⟩ := parse_quoted .singleQuoted hp htext hclose
    have hread : Adds .inWord p ((opened.skip isSingle).after '\'' after)
        (opened.rest.takeWhile isSingle) :=
      Adds.quoted hp (fun _ _ => rfl) hadds hclose fun _ _ _ => rfl
    have hpiece : piece.parse .outside p = _ := parse_choice_left hparse
    rw [hpiece]
    refine .read ⟨_, _, hp, rfl⟩ ?_ (h.trans hread.offset_le) ?_
    · rw [hp]
      exact Nat.lt_succ_of_lt hle
    · show Adds _ _ _ (opened.rest.takeWhile isSingle ++ [])
      rw [List.append_nil]
      exact hread
  | nil =>
    have hopen : singleQuoted.parse .outside p = .failed p.offset :=
      (parse_quoted_open _ hp htext (by simp [hclose])).trans (congrArg _ (Nat.max_eq_right h))
    have hpiece : piece.parse .outside p = .failed p.offset := by
      refine (parse_choice_right hopen).trans (all_but_single_failed (Nat.le_refl _) ?_ ?_ ?_)
      · simp [hp]
      · simp [hp]
      · simp [hp, isBare]
    rw [hpiece]
    refine .stuck ⟨⟨_, _, hp, .inl rfl⟩, Nat.le_refl _, fun current finished => ?_⟩
    have hscan := hadds.run_rest current finished
    rw [hclose] at hscan
    rw [hp]
    exact congrArg WordScan.finish hscan

theorem piece_double (hp : p.rest = '"' :: rest) : PieceResult p (piece.parse .outside p) := by
  let noted : Place := { p with furthest := p.offset }
  let opened := noted.after '"' rest
  obtain ⟨branches, next, hrepeated, hadds, hends⟩ :=
    exists_doubleBody opened (Nat.le_add_right p.offset _)
  have hbody := parse_star hrepeated
  have hle : next.rest.length ≤ rest.length := hadds.length_le
  have hoffset : p.offset ≤ next.offset := Nat.le_of_add_right_le hadds.offset_le
  rw [piece_not_single h (by simp [hp])]
  by_cases hclose : ∃ after, next.rest = '"' :: after
  · obtain ⟨after, hclose⟩ := hclose
    obtain ⟨text, hparse⟩ := parse_quoted .doubleQuoted (p := noted) hp hbody hclose
    have hpiece : (Expr.choice doubleQuoted (.choice escaped bare)).parse .outside noted = _ :=
      parse_choice_left hparse
    rw [hpiece]
    have hread : Adds .inWord p (next.after '"' after) (branches.flatMap doubleBranchText) :=
      Adds.quoted hp (fun _ _ => rfl) hadds hclose fun _ _ _ => rfl
    refine .read ⟨_, _, hp, rfl⟩ ?_ ?_ hread
    · rw [hclose] at hle
      rw [hp]
      exact Nat.lt_succ_of_lt hle
    · exact hends.furthest.trans_le (Nat.le_add_right _ _)
  · have hopen : doubleQuoted.parse .outside noted = .failed next.offset := by
      refine (parse_quoted_open (p := noted) _ hp hbody ?_).trans (congrArg _ ?_)
      · intro hhead
        exact hclose ((List.head?_eq_some_iff.1 hhead))
      · rw [hends.furthest]
        exact Nat.max_eq_left hoffset
    have hpiece : (Expr.choice doubleQuoted (.choice escaped bare)).parse .outside noted =
        .failed next.offset := by
      refine (parse_choice_right hopen).trans (escaped_or_bare_failed hoffset ?_ ?_)
      · simp [noted, hp]
      · simp [noted, hp, isBare]
    rw [hpiece]
    refine .stuck ⟨⟨_, _, hp, .inr (.inl rfl)⟩, hoffset, fun current finished => ?_⟩
    have hscan : WordScan.run ⟨.inWord, p.offset, current, finished⟩ p.rest = _ :=
      (congrArg (WordScan.run _) hp).trans (hadds.run_rest current finished)
    rw [hscan]
    rcases hends.stops with hnil | hslash | hquote
    · rw [hnil]
      rfl
    · rw [hslash]
      rfl
    · exact absurd hquote hclose

theorem piece_escape (hp : p.rest = '\\' :: rest) : PieceResult p (piece.parse .outside p) := by
  let noted : Place := { p with furthest := p.offset }
  have hdouble : doubleQuoted.parse .outside noted = .failed p.offset :=
    doubleQuoted_failed (Nat.le_refl _) (by simp [noted, hp])
  rw [piece_not_single h (by simp [hp]), parse_choice_right hdouble]
  cases rest with
  | cons c rest =>
    have hpiece : (Expr.choice escaped bare).parse .outside noted = _ :=
      parse_choice_left (parse_escape .escaped hp)
    rw [hpiece]
    refine .read ⟨_, _, hp, rfl⟩ ?_ ?_ ⟨['\\', c], hp, fun _ _ => rfl⟩
    · simp only [hp, Place.after, List.length_cons]
      omega
    · simp only [noted, Place.after]
      omega
  | nil =>
    have hpiece : (Expr.choice escaped bare).parse .outside noted = .failed p.offset := by
      refine escaped_or_bare_failed (Nat.le_refl _) ?_ ?_
      · simp [noted, hp]
      · simp [noted, hp, isBare]
    rw [hpiece]
    refine .stuck ⟨⟨_, _, hp, .inr (.inr rfl)⟩, Nat.le_refl _, fun current finished => ?_⟩
    rw [hp]
    rfl

/-- What is no quote and no backslash is bare text, or no piece at all. -/
theorem piece_bare (hquote : ∀ c ∈ p.rest.head?, c ≠ '\'' ∧ c ≠ '"' ∧ c ≠ '\\') :
    PieceResult p (piece.parse .outside p) := by
  let noted : Place := { p with furthest := p.offset }
  have hescape : ∀ c rest, noted.rest ≠ '\\' :: c :: rest := by
    intro c rest hp
    exact (hquote '\\' (by rw [show p.rest = _ from hp]; rfl)).2.2 rfl
  have hdouble : doubleQuoted.parse .outside noted = .failed p.offset :=
    doubleQuoted_failed (Nat.le_refl _) fun hp => (hquote _ hp).2.1 rfl
  have hescaped : escaped.parse .outside noted = .failed p.offset :=
    escaped_failed (Nat.le_refl _) hescape
  rw [piece_not_single h fun hp => (hquote _ hp).1 rfl, parse_choice_right hdouble,
    parse_choice_right hescaped]
  rcases p.head_cases isBare with ⟨c, rest, hp, hc⟩ | hends
  · have hadds := Adds.skip (fun offset _ _ _ h => run_bare offset h) noted
    have hread : bare.parse .outside noted = _ := parse_bare hp hc
    have hblank : WordScan.isSeparator c = false := by
      simp only [isBare, Bool.not_eq_true', Bool.or_eq_false_iff] at hc
      exact hc.1
    rw [hread]
    exact .read ⟨c, rest, hp, hblank⟩ (Place.length_skip_lt (p := noted) hp hc)
      (Nat.le_add_right _ _) hadds
  · have hfailed : bare.parse .outside noted = .failed p.offset :=
      bare_failed (Nat.le_refl _) hends
    rw [hfailed]
    refine .absent fun c hc => ?_
    have hnot := hends c hc
    simpa [isBare, hquote c hc] using hnot

theorem piece_result : PieceResult p (piece.parse .outside p) := by
  cases hp : p.rest with
  | nil => exact piece_bare h (by simp [hp])
  | cons c rest =>
    by_cases hquote : c = '\'' ∨ c = '"' ∨ c = '\\'
    · rcases hquote with rfl | rfl | rfl
      · exact piece_single h hp
      · exact piece_double h hp
      · exact piece_escape h hp
    · refine piece_bare h ?_
      rw [hp]
      simpa [not_or] using hquote

end Piece

/-! ## Words -/

/-- Where the pieces of a word end: at a blank, at the end, or for good. -/
inductive WordEnd (p : Place) : Prop
  | closed (h : ∀ c ∈ p.rest.head?, WordScan.isSeparator c = true)
    (furthest : p.furthest = p.offset)
  | stuck (h : Stuck p.rest p.offset p.furthest)

theorem exists_pieces (p : Place) (h : p.furthest ≤ p.offset) : ∃ branches next,
    repeated (piece.parse .outside) p = (branches, next) ∧
      Adds .inWord p next (branches.flatMap pieceText) ∧ WordEnd next := by
  refine exists_repeated_adds (fun p h => ?_) p h
  have hresult := piece_result h
  generalize piece.parse .outside p = result at hresult
  cases hresult with
  | read _ shorter furthest adds =>
    refine .inl ⟨_, _, rfl, shorter, furthest, ?_⟩
    rw [List.flatMap_singleton]
    exact adds
  | stuck h => exact .inr ⟨_, rfl, .stuck h⟩
  | absent h => exact .inr ⟨_, rfl, .closed h rfl⟩

/-- What a word comes to. -/
inductive WordResult (p : Place) : Result RuleName → Prop
  | read {b : Branch RuleName} {next : Place} (name : b.name = .word)
    (opens : ∃ c rest, p.rest = c :: rest ∧ WordScan.isSeparator c = false ∧ c ≠ '#')
    (shorter : next.rest.length < p.rest.length) (adds : Adds .inWord p next (wordText b))
    (ends : WordEnd next) : WordResult p (.matched [b] next)
  | stuck {stop : Nat} (h : Stuck p.rest p.offset stop) : WordResult p (.failed stop)
  | absent (h : ∀ c ∈ p.rest.head?, WordScan.isSeparator c = true ∨ c = '#') :
    WordResult p (.failed p.offset)

theorem word_result {p : Place} (h : p.furthest ≤ p.offset) :
    WordResult p (word.parse .outside p) := by
  by_cases hhash : ∃ rest, p.rest = '#' :: rest
  · obtain ⟨rest, hp⟩ := hhash
    have hbody : (Expr.seq (.not (.char '#')) (.plus piece)).parse .outside p =
        .failed p.furthest :=
      parse_seq_failed_left (parse_not_failed (q := p.after '#' rest) (parse_char hp))
    have hword : word.parse .outside p = .failed p.offset := by
      rw [word, parse_rule_outside]
      exact (congrArg (Result.named _ _ _) hbody).trans (congrArg _ (Nat.max_eq_right h))
    rw [hword]
    refine .absent ?_
    simp [hp]
  · have hhead : p.rest.head? ≠ some '#' := fun hhead => hhash (List.head?_eq_some_iff.1 hhead)
    have hnot : (Expr.not (.char '#') : Expr RuleName).parse .outside p = .matched [] p :=
      parse_not (parse_char_failed hhead)
    have hfails : ∀ {furthest}, piece.parse .outside p = .failed furthest →
        word.parse .outside p = .failed (max furthest p.offset) := fun hpiece =>
      (parse_rule_outside _ _ _ p).trans (congrArg (Result.named _ _ _)
        (parse_seq_failed_right hnot (parse_seq_failed_left hpiece)))
    have hresult := piece_result h
    generalize hpiece : piece.parse .outside p = result at hresult
    cases hresult with
    | @read b next opens shorter furthest adds =>
      obtain ⟨branches, last, hrepeated, hadds, hends⟩ := exists_pieces next furthest
      have hbody : (Expr.seq (.not (.char '#')) (.plus piece)).parse .outside p =
          .matched ([] ++ ([b] ++ branches)) last :=
        parse_seq hnot (parse_seq hpiece (parse_star hrepeated))
      have hword : word.parse .outside p = _ :=
        (parse_rule_outside _ _ _ p).trans (congrArg (Result.named _ _ _) hbody)
      rw [hword]
      obtain ⟨c, rest, hp, hc⟩ := opens
      refine .read rfl ⟨c, rest, hp, hc, ?_⟩ (hadds.length_le.trans_lt shorter) ?_ hends
      · rintro rfl
        exact hhash ⟨rest, hp⟩
      · exact adds.trans hadds
    | stuck h =>
      have hword := hfails hpiece
      rw [Nat.max_eq_left h.offset_le] at hword
      rw [hword]
      exact .stuck h
    | absent h =>
      have hword := hfails hpiece
      rw [Nat.max_self] at hword
      rw [hword]
      exact .absent fun c hc => .inl (h c hc)

/-! ## The end of a line -/

/-- A scan up to a byte where it has read `words` and the line may end or go on. -/
inductive Stands : List (List Char) → Nat → WordScan → Prop
  | between (words : List (List Char)) (offset : Nat) :
    Stands words offset ⟨.between, offset, [], words.reverse⟩
  | inWord (words : List (List Char)) (word : List Char) (offset : Nat) :
    Stands (words ++ [word]) offset ⟨.inWord, offset, word.reverse, words.reverse⟩

theorem Stands.finish {words : List (List Char)} {offset : Nat} {s : WordScan}
    (h : Stands words offset s) : s.finish = .ok words := by
  cases h <;> simp [WordScan.finish]

theorem run_separators (offset : Nat) (finished : List (List Char)) {blanks : List Char}
    (h : ∀ c ∈ blanks, WordScan.isSeparator c = true) :
    WordScan.run ⟨.between, offset, [], finished⟩ blanks =
      ⟨.between, offset + Text.byteLength blanks, [], finished⟩ := by
  induction blanks generalizing offset with
  | nil => rfl
  | cons c blanks ih =>
    have hstep : WordScan.step ⟨.between, offset, [], finished⟩ c =
        ⟨.between, offset + c.utf8Size, [], finished⟩ := by
      simp [WordScan.step, WordScan.react, h c List.mem_cons_self]
    rw [Text.byteLength_cons, ← Nat.add_assoc,
      ← ih (offset + c.utf8Size) fun d hd => h d (List.mem_cons_of_mem _ hd), ← hstep]
    rfl

/-- A word opened between words is read as one that goes on. -/
theorem run_between {offset : Nat} {current : List Char} {finished : List (List Char)}
    {rest : List Char}
    (h : ∃ c text, rest = c :: text ∧ WordScan.isSeparator c = false ∧ c ≠ '#') :
    WordScan.run ⟨.between, offset, current, finished⟩ rest =
      WordScan.run ⟨.inWord, offset, current, finished⟩ rest := by
  obtain ⟨c, text, rfl, hblank, hhash⟩ := h
  exact congrArg (WordScan.run · text) (step_between hblank hhash)

/-- After blanks the scan is between words, with the same words. -/
theorem Stands.run_blanks {words : List (List Char)} {offset : Nat} {s : WordScan}
    (h : Stands words offset s) {blanks : List Char}
    (hblanks : ∀ c ∈ blanks, WordScan.isSeparator c = true) :
    s.run blanks = ⟨.between, offset + Text.byteLength blanks, [], words.reverse⟩ ∨
      s.mode = .inWord ∧ blanks = [] := by
  cases h with
  | between => exact .inl (run_separators offset words.reverse hblanks)
  | inWord ws w =>
    cases blanks with
    | nil => exact .inr ⟨rfl, rfl⟩
    | cons c blanks =>
      have hstep : WordScan.step ⟨.inWord, offset, w.reverse, ws.reverse⟩ c =
          ⟨.between, offset + c.utf8Size, [], (ws ++ [w]).reverse⟩ := by
        simp [WordScan.step, WordScan.react, WordScan.finishWord, hblanks c List.mem_cons_self]
      have hrest := run_separators (offset + c.utf8Size) (ws ++ [w]).reverse fun d hd =>
        hblanks d (List.mem_cons_of_mem c hd)
      rw [← hstep] at hrest
      rw [Text.byteLength_cons, ← Nat.add_assoc]
      exact .inl hrest

theorem Stands.skip {words : List (List Char)} {p : Place} {s : WordScan}
    (h : Stands words p.offset s) :
    s.run p.rest = WordScan.run ⟨.between, (p.skip WordScan.isSeparator).offset, [], words.reverse⟩
        (p.skip WordScan.isSeparator).rest ∨
      s.mode = .inWord ∧ p.skip WordScan.isSeparator = p := by
  have hblanks : ∀ c ∈ p.rest.takeWhile WordScan.isSeparator, WordScan.isSeparator c = true :=
    fun c hc => List.mem_takeWhile_imp hc
  rcases h.run_blanks hblanks with hrun | ⟨hmode, hnil⟩
  · refine .inl ?_
    conv_lhs => rw [p.rest_eq_append WordScan.isSeparator, WordScan.run_append, hrun]
    rfl
  · refine .inr ⟨hmode, Place.skip_eq_self fun c hc => ?_⟩
    obtain ⟨rest, hp⟩ := List.head?_eq_some_iff.1 hc
    simpa [hp, List.takeWhile_cons] using hnil

/-- Where the words of a line end: before blanks and the end or a comment, or for good. -/
inductive LineStop (p : Place) : Prop
  | ended (h : (p.skip WordScan.isSeparator).rest.head? = none ∨
      (p.skip WordScan.isSeparator).rest.head? = some '#')
  | stuck (h : Stuck (p.skip WordScan.isSeparator).rest (p.skip WordScan.isSeparator).offset
      p.furthest)

theorem LineStop.of_stuck {p : Place} (h : Stuck p.rest p.offset p.furthest) : LineStop p := by
  obtain ⟨c, text, hp, hblank, -⟩ := h.opens_word
  refine .stuck ?_
  rw [Place.skip_eq_self (by simpa [hp] using hblank)]
  exact h

/-- After blanks, where no word can start and none is opened. -/
theorem LineStop.of_absent {p : Place} {furthest : Nat}
    (h : ∀ c ∈ (p.skip WordScan.isSeparator).rest.head?, WordScan.isSeparator c = true ∨ c = '#') :
    LineStop { p with furthest } := by
  refine .ended ?_
  cases hhead : (p.skip WordScan.isSeparator).rest.head? with
  | none => exact .inl hhead
  | some c =>
    have hblank := Place.head?_skip c hhead
    rcases h c hhead with hc | rfl
    · exact absurd hc (by simp [hblank])
    · exact .inr hhead

/-- The parse and the scan of what is left of a line come to the same, where `words` have been read
before. -/
def Agrees (words : List (List Char)) (scan : Except UnfinishedWord (List (List Char))) :
    Result RuleName → Prop
  | .failed stop => scan = .error ⟨stop⟩
  | .matched branches _ => scan = .ok (words ++ wordTexts branches)

theorem Agrees.seq {words : List (List Char)} {scan : Except UnfinishedWord (List (List Char))}
    {a b : Expr RuleName} {p q : Place} {branches : List (Branch RuleName)}
    (ha : a.parse .outside p = .matched branches q)
    (h : Agrees (words ++ wordTexts branches) scan (b.parse .outside q)) :
    Agrees words scan ((a.seq b).parse .outside p) := by
  generalize hb : b.parse .outside q = result at h
  cases result with
  | matched more next =>
    rw [parse_seq ha hb]
    show scan = .ok (words ++ wordTexts (branches ++ more))
    rw [wordTexts_append, ← List.append_assoc]
    exact h
  | failed furthest =>
    rw [parse_seq_failed_right ha hb]
    exact h

/-- Any character, to the end. -/
theorem skip_all (p : Place) : (p.skip fun _ => true).rest = [] := by
  simp [Place.skip]

theorem parse_endOfInput {p : Place} (hp : p.rest = []) :
    (Expr.rule RuleName.endOfInput .normal .endOfInput).parse .outside p =
      .matched [.mk .endOfInput [] []] p := by
  rw [parse_rule_outside]
  simp [Expr.parse, hp, named_outside_matched]

theorem parse_endOfInput_failed {p : Place} (hp : p.rest ≠ []) :
    (Expr.rule RuleName.endOfInput .normal .endOfInput).parse .outside p =
      .failed (max p.furthest p.offset) := by
  rw [parse_rule_outside]
  simp [Expr.parse, hp, named_outside_failed]

theorem lineEnd_ended {p : Place} (h : (p.skip WordScan.isSeparator).rest.head? = none ∨
    (p.skip WordScan.isSeparator).rest.head? = some '#') :
    ∃ next, lineEnd.parse .outside p = .matched [.mk .endOfInput [] []] next := by
  have hblanks := reads_blank.star .outside p
  rcases h with hnil | hhash
  · have hcomment : comment.parse .outside (p.skip WordScan.isSeparator) =
        .failed p.furthest :=
      parse_seq_failed_left (parse_char_failed (by simp [hnil]))
    exact ⟨_, parse_seq hblanks (parse_seq (parse_optional_failed hcomment)
      (parse_endOfInput (List.head?_eq_none_iff.1 hnil)))⟩
  · obtain ⟨text, hq⟩ := List.head?_eq_some_iff.1 hhash
    have hcomment : comment.parse .outside (p.skip WordScan.isSeparator) = .matched [] _ :=
      parse_seq (parse_char hq) (Reads.any.star _ _)
    exact ⟨_, parse_seq hblanks (parse_seq (parse_optional hcomment)
      (parse_endOfInput (skip_all _)))⟩

theorem lineEnd_stuck {p : Place} (h : Stuck (p.skip WordScan.isSeparator).rest
    (p.skip WordScan.isSeparator).offset p.furthest) :
    lineEnd.parse .outside p = .failed p.furthest := by
  have hblanks := reads_blank.star .outside p
  obtain ⟨c, text, hq, -, hhash⟩ := h.opens_word
  have hcomment : comment.parse .outside (p.skip WordScan.isSeparator) = .failed p.furthest :=
    parse_seq_failed_left (parse_char_failed (by simp [hq, hhash]))
  have hend : (Expr.rule RuleName.endOfInput .normal .endOfInput).parse .outside
      (p.skip WordScan.isSeparator) = .failed p.furthest :=
    (parse_endOfInput_failed (by simp [hq])).trans (congrArg _ (Nat.max_eq_left h.offset_le))
  exact parse_seq_failed_right hblanks
    (parse_seq_failed_right (parse_optional_failed hcomment) hend)

/-- What the grammar and the scan make of the end of a line is the same, but for a `#` right after
a word, which goes on with the word. -/
theorem lineEnd_agrees {words : List (List Char)} {p : Place} {s : WordScan}
    (hs : Stands words p.offset s) (hword : s.mode = .inWord → p.rest.head? ≠ some '#')
    (h : LineStop p) : Agrees words (s.run p.rest).finish (lineEnd.parse .outside p) := by
  cases h with
  | ended h =>
    obtain ⟨next, hparse⟩ := lineEnd_ended h
    rw [hparse]
    show (s.run p.rest).finish = .ok (words ++ [])
    rw [List.append_nil]
    rcases hs.skip with hscan | ⟨hmode, hskip⟩
    · rw [hscan]
      have hread := (Stands.between words (p.skip WordScan.isSeparator).offset).finish
      rcases h with hnil | hhash
      · rw [List.head?_eq_none_iff.1 hnil]
        exact hread
      · obtain ⟨text, hq⟩ := List.head?_eq_some_iff.1 hhash
        obtain ⟨hcomment, hfinish⟩ := WordScan.finish_step_hash
          (s := ⟨.between, (p.skip WordScan.isSeparator).offset, [], words.reverse⟩) (.inl rfl)
        rw [hq]
        exact (WordScan.finish_run_of_comment hcomment text).trans (hfinish.trans hread)
    · rw [hskip] at h
      have hnil := h.resolve_right (hword hmode)
      rw [List.head?_eq_none_iff.1 hnil]
      exact hs.finish
  | stuck h =>
    rw [lineEnd_stuck h]
    show (s.run p.rest).finish = .error ⟨p.furthest⟩
    rcases hs.skip with hscan | ⟨hmode, hskip⟩
    · rw [hscan, run_between h.opens_word]
      exact h.scan [] words.reverse
    · rw [hskip] at h
      cases hs with
      | between => cases hmode
      | inWord ws w => exact h.scan w.reverse ws.reverse

/-! ## Further words -/

/-- From one place in a word to another, branches of words are read, and so are the words of the
scan. -/
def Further (p : Place) (branches : List (Branch RuleName)) (next : Place) : Prop :=
  ∀ words s, Stands words p.offset s → s.mode = .inWord → ∃ s', s'.mode = .inWord ∧
    Stands (words ++ wordTexts branches) next.offset s' ∧ s.run p.rest = s'.run next.rest

/-- The scan of a word that the grammar reads between words. -/
theorem run_word {p next : Place} {b : Branch RuleName} (words : List (List Char))
    (opens : ∃ c rest, p.rest = c :: rest ∧ WordScan.isSeparator c = false ∧ c ≠ '#')
    (adds : Adds .inWord p next (wordText b)) :
    WordScan.run ⟨.between, p.offset, [], words.reverse⟩ p.rest =
      WordScan.run ⟨.inWord, next.offset, (wordText b).reverse, words.reverse⟩ next.rest := by
  rw [run_between opens, adds.run_rest, List.append_nil]

theorem furtherWord_cases {p : Place} (h : WordEnd p) :
    (∃ branches next, furtherWord.parse .outside p = .matched branches next ∧
      next.rest.length < p.rest.length ∧ WordEnd next ∧ Further p branches next) ∨
    ∃ furthest, furtherWord.parse .outside p = .failed furthest ∧ LineStop { p with furthest } ∧
      p.rest.head? ≠ some '#' := by
  cases h with
  | closed hblank furthest =>
    rcases p.head_cases WordScan.isSeparator with ⟨c, rest, hp, hc⟩ | hhead
    · let q := p.skip WordScan.isSeparator
      have hblanks : (Expr.plus blank).parse .outside p = .matched [] q :=
        reads_blank.plus_of_matched _ hp hc
      have hless : q.rest.length < p.rest.length := Place.length_skip_lt hp hc
      have hhash : p.rest.head? ≠ some '#' := by
        rw [hp]
        rintro ⟨⟩
        cases hc
      have hword := word_result (p := q) (furthest.trans_le (Nat.le_add_right _ _))
      generalize hparse : word.parse .outside q = result at hword
      cases hword with
      | @read b next name opens shorter adds ends =>
        refine .inl ⟨_, next, parse_seq hblanks hparse, shorter.trans hless, ends, ?_⟩
        intro words s hs hmode
        have hscan := hs.skip.resolve_right fun ⟨_, hskip⟩ => by
          rw [show q = p from hskip] at hless
          exact Nat.lt_irrefl _ hless
        refine ⟨_, rfl, ?_, hscan.trans (run_word words opens adds)⟩
        rw [List.nil_append, wordTexts_of_name name]
        exact Stands.inWord words (wordText b) next.offset
      | stuck h => exact .inr ⟨_, parse_seq_failed_right hblanks hparse, .stuck h, hhash⟩
      | absent h =>
        exact .inr ⟨_, parse_seq_failed_right hblanks hparse, .of_absent h, hhash⟩
    · have hnil : p.rest.head? = none := by
        refine Option.eq_none_iff_forall_not_mem.2 fun c hc => ?_
        exact absurd (hblank c hc) (by simp [hhead c hc])
      have hstop : LineStop p := .ended (.inl (by rw [Place.skip_eq_self hhead, hnil]))
      exact .inr ⟨_, parse_seq_failed_left (reads_blank.plus_of_failed _ hhead), hstop,
        by simp [hnil]⟩
  | stuck h =>
    obtain ⟨c, text, hp, hblank, hhash⟩ := h.opens_word
    have hhead : ∀ d ∈ p.rest.head?, WordScan.isSeparator d = false := by
      simpa [hp] using hblank
    exact .inr ⟨_, parse_seq_failed_left (reads_blank.plus_of_failed _ hhead), .of_stuck h,
      by simpa [hp] using hhash⟩

theorem exists_furtherWords (p : Place) (h : WordEnd p) : ∃ branches next,
    repeated (furtherWord.parse .outside) p = (branches, next) ∧ Further p branches next ∧
      LineStop next ∧ next.rest.head? ≠ some '#' := by
  refine exists_repeated (I := WordEnd) (R := Further)
    (E := fun next => LineStop next ∧ next.rest.head? ≠ some '#') ?_ ?_ (fun p h => ?_) p h
  · intro p furthest words s hs hmode
    exact ⟨s, hmode, (List.append_nil words).symm ▸ hs, rfl⟩
  · intro p q r b c hb hc words s hs hmode
    obtain ⟨s', hmode', hs', hrun⟩ := hb words s hs hmode
    obtain ⟨s'', hmode'', hs'', hrun'⟩ := hc _ s' hs' hmode'
    refine ⟨s'', hmode'', ?_, hrun.trans hrun'⟩
    rw [wordTexts_append, ← List.append_assoc]
    exact hs''
  · exact furtherWord_cases h

/-! ## Whole lines -/

/-- The words of a line and its end. -/
theorem words_agree {p : Place} (hhead : ∀ c ∈ p.rest.head?, WordScan.isSeparator c = false)
    (h : p.furthest ≤ p.offset) :
    Agrees [] (WordScan.run ⟨.between, p.offset, [], []⟩ p.rest).finish
      ((Expr.seq (.optional (.seq word (.star furtherWord))) lineEnd).parse .outside p) := by
  have hskip := Place.skip_eq_self hhead
  have hbetween : ScanMode.between = .inWord → p.rest.head? ≠ some '#' := nofun
  have hword := word_result h
  generalize hparse : word.parse .outside p = result at hword
  cases hword with
  | @read b next name opens shorter adds ends =>
    obtain ⟨branches, last, hrepeated, hfurther, hstop, hhash⟩ := exists_furtherWords next ends
    obtain ⟨s, hmode, hs, hrun⟩ :=
      hfurther _ _ (Stands.inWord [] (wordText b) next.offset) rfl
    have hend := lineEnd_agrees hs (fun _ => hhash) hstop
    rw [← hrun] at hend
    refine Agrees.seq (parse_optional (parse_seq hparse (parse_star hrepeated))) ?_
    rw [wordTexts_append, wordTexts_of_name name]
    exact run_word [] opens adds ▸ hend
  | @stuck stop h =>
    have hstop : LineStop { p with furthest := stop } := .of_stuck h
    exact Agrees.seq (parse_optional_failed (parse_seq_failed_left hparse))
      (lineEnd_agrees (Stands.between [] p.offset) hbetween hstop)
  | absent h =>
    have hstop : LineStop { p with furthest := p.offset } := .of_absent (by rwa [hskip])
    exact Agrees.seq (parse_optional_failed (parse_seq_failed_left hparse))
      (lineEnd_agrees (Stands.between [] p.offset) hbetween hstop)

/-- The grammar and the scan divide every line in the same way. -/
theorem divide_eq_splitWords (text : List Char) : divide text = splitWords text := by
  let p : Place := ⟨text, 0, 0⟩
  let q := p.skip WordScan.isSeparator
  have hstart : (Expr.startOfInput : Expr RuleName).parse .outside p = .matched [] p := rfl
  have hblanks : (Expr.star blank).parse .outside p = .matched [] q := reads_blank.star _ _
  have hscan : WordScan.start.run text = WordScan.run ⟨.between, q.offset, [], []⟩ q.rest :=
    (Stands.skip (p := p) (Stands.between [] 0)).resolve_right fun h => by cases h.1
  have hbody : Agrees [] (splitWords text) ((Expr.seq .startOfInput (.seq (.star blank)
      (.seq (.optional (.seq word (.star furtherWord))) lineEnd))).parse .outside p) := by
    unfold splitWords
    rw [hscan]
    exact Agrees.seq hstart (Agrees.seq hblanks
      (words_agree Place.head?_skip (Nat.zero_le _)))
  have hline : line.parse .outside p = Result.named .line .outside p
      ((Expr.seq .startOfInput (.seq (.star blank)
        (.seq (.optional (.seq word (.star furtherWord))) lineEnd))).parse .outside p) :=
    parse_rule_outside _ _ _ _
  unfold divide
  rw [show (⟨text, 0, 0⟩ : Place) = p from rfl, hline]
  generalize Expr.parse _ .outside p = result at hbody ⊢
  cases result with
  | matched branches next => exact hbody.symm
  | failed furthest =>
    rw [named_outside_failed, show max furthest p.offset = furthest from Nat.max_zero furthest]
    exact hbody.symm

end TwinTrees.Script.LineGrammar
