import Mathlib.Data.List.TakeWhile
import TwinTrees.Proofs.Script.Peg
import TwinTrees.Script.Word

/-!
# The grammar of a line

A line is given by a grammar of parsing expressions: words between blanks, each word one or more
pieces, a comment at the end. The words of a line are read off the tree of its parse, and where
there is no parse the line is refused at the furthest place at which a rule has failed.

Here is what the rules inside a word do, each next to the scan of the same text. A rule that matches
has read a text that the scan adds to its word (`Adds`); text between double quotes is read as far
as it goes, and the rules for it have failed last where it ends (`DoubleEnd`).
-/

namespace TwinTrees.Script.LineGrammar

open Peg

/-- The rules of the grammar that make branches. -/
inductive RuleName
  | line | word | singleQuoted | singleText | doubleQuoted | doubleEscape | doubleText
  | escaped | bare | endOfInput
  deriving DecidableEq, Repr

def blank : Expr RuleName := .choice (.char ' ') (.char '\t')

def comment : Expr RuleName := .seq (.char '#') (.star .any)

def singleText : Expr RuleName :=
  .rule .singleText .atomic (.star (.seq (.not (.char '\'')) .any))

def singleQuoted : Expr RuleName :=
  .rule .singleQuoted .compound (.seq (.char '\'') (.seq singleText (.char '\'')))

def doubleEscape : Expr RuleName := .rule .doubleEscape .atomic (.seq (.char '\\') .any)

def doubleText : Expr RuleName :=
  .rule .doubleText .atomic (.plus (.seq (.not (.choice (.char '"') (.char '\\'))) .any))

def doubleQuoted : Expr RuleName :=
  .rule .doubleQuoted .compound
    (.seq (.char '"') (.seq (.star (.choice doubleEscape doubleText)) (.char '"')))

def escaped : Expr RuleName := .rule .escaped .atomic (.seq (.char '\\') .any)

def bare : Expr RuleName :=
  .rule .bare .atomic
    (.plus (.seq (.not (.choice blank (.choice (.char '\'') (.choice (.char '"') (.char '\\')))))
      .any))

def piece : Expr RuleName := .choice singleQuoted (.choice doubleQuoted (.choice escaped bare))

def word : Expr RuleName := .rule .word .compound (.seq (.not (.char '#')) (.plus piece))

/-- Blanks and a word. -/
def furtherWord : Expr RuleName := .seq (.plus blank) word

/-- What may follow the last word of a line. -/
def lineEnd : Expr RuleName :=
  .seq (.star blank) (.seq (.optional comment) (.rule .endOfInput .normal .endOfInput))

def line : Expr RuleName :=
  .rule .line .normal (.seq .startOfInput (.seq (.star blank)
    (.seq (.optional (.seq word (.star furtherWord))) lineEnd)))

/-- The text of a branch between double quotes. -/
def doubleBranchText (b : Branch RuleName) : List Char :=
  if b.name = .doubleEscape then b.text.drop 1 else b.text

/-- The text that a piece adds to its word. -/
def pieceText (b : Branch RuleName) : List Char :=
  match b.name with
  | .bare => b.text
  | .escaped => b.text.drop 1
  | .singleQuoted => b.inner.flatMap Branch.text
  | .doubleQuoted => b.inner.flatMap doubleBranchText
  | _ => []

/-- The word of a branch. -/
def wordText (b : Branch RuleName) : List Char := b.inner.flatMap pieceText

/-- The words among branches. -/
def wordTexts (branches : List (Branch RuleName)) : List (List Char) :=
  (branches.filter (·.name = .word)).map wordText

/-- The words of a line by the grammar. -/
def divide (text : List Char) : Except UnfinishedWord (List (List Char)) :=
  match line.parse .outside ⟨text, 0, 0⟩ with
  | .failed furthest => .error ⟨furthest⟩
  | .matched [] _ => .ok []
  | .matched (tree :: _) _ => .ok (wordTexts tree.inner)

theorem wordTexts_append (a b : List (Branch RuleName)) :
    wordTexts (a ++ b) = wordTexts a ++ wordTexts b := by
  simp [wordTexts]

theorem wordTexts_of_name {b : Branch RuleName} (h : b.name = .word) :
    wordTexts [b] = [wordText b] := by
  simp [wordTexts, h]

/-! ## Characters -/

/-- The characters of text between single quotes. -/
def isSingle (c : Char) : Bool := !(c == '\'')

/-- The characters of text between double quotes, those that are escaped apart. -/
def isDouble (c : Char) : Bool := !(c == '"' || c == '\\')

/-- The characters that mean nothing inside a word. -/
def isBare (c : Char) : Bool :=
  !(WordScan.isSeparator c || (c == '\'' || (c == '"' || c == '\\')))

theorem reads_blank : Reads blank WordScan.isSeparator := (Reads.char ' ').choice (Reads.char '\t')

/-! ## The scan along the line -/

section Scan

variable {current : List Char} {finished : List (List Char)}

theorem offset_run (s : WordScan) (text : List Char) :
    (s.run text).offset = s.offset + Text.byteLength text := by
  induction text generalizing s with
  | nil => rfl
  | cons c text ih =>
    rw [Text.byteLength_cons, ← Nat.add_assoc]
    exact ih (s.step c)

/-- Between words a character that is neither a blank nor a comment opens a word. -/
theorem step_between {offset : Nat} {c : Char} (hblank : WordScan.isSeparator c = false)
    (hhash : c ≠ '#') : WordScan.step ⟨.between, offset, current, finished⟩ c =
      WordScan.step ⟨.inWord, offset, current, finished⟩ c := by
  simp [WordScan.step, WordScan.react, WordScan.openPiece, hblank, hhash]

/-- Characters that the scan adds to the word without a change of its mode. -/
theorem run_added {mode : ScanMode} {q : Char → Bool}
    (adds : ∀ offset current c, q c = true → WordScan.step ⟨mode, offset, current, finished⟩ c =
      ⟨mode, offset + c.utf8Size, c :: current, finished⟩)
    (offset : Nat) {text : List Char} (h : ∀ c ∈ text, q c = true) :
    WordScan.run ⟨mode, offset, current, finished⟩ text =
      ⟨mode, offset + Text.byteLength text, text.reverse ++ current, finished⟩ := by
  induction text generalizing offset current with
  | nil => rfl
  | cons c text ih =>
    calc WordScan.run ⟨mode, offset, current, finished⟩ (c :: text)
      _ = WordScan.run ⟨mode, offset + c.utf8Size, c :: current, finished⟩ text :=
        congrArg (WordScan.run · text) (adds offset current c (h c List.mem_cons_self))
      _ = _ := by
        rw [ih _ fun d hd => h d (List.mem_cons_of_mem _ hd), Text.byteLength_cons,
          Nat.add_assoc, List.reverse_cons, List.append_assoc]
        rfl

theorem run_bare (offset : Nat) {text : List Char} (h : ∀ c ∈ text, isBare c = true) :
    WordScan.run ⟨.inWord, offset, current, finished⟩ text =
      ⟨.inWord, offset + Text.byteLength text, text.reverse ++ current, finished⟩ := by
  refine run_added (fun offset current c hc => ?_) offset h
  simp only [isBare, Bool.not_eq_true', Bool.or_eq_false_iff, beq_eq_false_iff_ne] at hc
  simp [WordScan.step, WordScan.react, WordScan.openPiece, hc]

theorem run_single (opened offset : Nat) {text : List Char} (h : ∀ c ∈ text, isSingle c = true) :
    WordScan.run ⟨.singleQuoted opened, offset, current, finished⟩ text =
      ⟨.singleQuoted opened, offset + Text.byteLength text, text.reverse ++ current, finished⟩ := by
  refine run_added (fun offset current c hc => ?_) offset h
  simp only [isSingle, Bool.not_eq_true', beq_eq_false_iff_ne] at hc
  simp [WordScan.step, WordScan.react, WordScan.push, hc]

theorem run_double (offset : Nat) {text : List Char} (h : ∀ c ∈ text, isDouble c = true) :
    WordScan.run ⟨.doubleQuoted, offset, current, finished⟩ text =
      ⟨.doubleQuoted, offset + Text.byteLength text, text.reverse ++ current, finished⟩ := by
  refine run_added (fun offset current c hc => ?_) offset h
  simp only [isDouble, Bool.not_eq_true', Bool.or_eq_false_iff, beq_eq_false_iff_ne] at hc
  simp [WordScan.step, WordScan.react, WordScan.push, hc]

end Scan

/-! ## The rules inside quotes -/

theorem parse_singleText (p : Place) :
    singleText.parse .outside p =
      .matched [.mk .singleText (p.rest.takeWhile isSingle) []] (p.skip isSingle) := by
  have hreads : Reads (.seq (.not (.char '\'')) .any : Expr RuleName) isSingle :=
    (Reads.char '\'').notAny
  rw [singleText, parse_rule_outside, hreads.star, named_outside_matched]
  simp only [Place.skip, Text.take_sub_dropWhile]

section Escape

variable (name : RuleName) {p : Place}

/-- A backslash and the character that it escapes, as a rule of either name. -/
theorem parse_escape {c : Char} {rest : List Char} (hp : p.rest = '\\' :: c :: rest) :
    (Expr.rule name .atomic (.seq (.char '\\') .any)).parse .outside p =
      .matched [.mk name ['\\', c] []] ((p.after '\\' (c :: rest)).after c rest) := by
  rw [parse_rule_outside]
  simp [Expr.parse, hp, Place.after, named_outside_matched, Nat.succ_sub]

theorem parse_escape_failed (hp : ∀ c rest, p.rest ≠ '\\' :: c :: rest) :
    (Expr.rule name .atomic (.seq (.char '\\') .any)).parse .outside p =
      .failed (max p.furthest p.offset) := by
  rw [parse_rule_outside]
  obtain ⟨rest, offset, furthest⟩ := p
  rcases rest with _ | ⟨c, _ | ⟨d, rest⟩⟩
  · rfl
  · by_cases hc : c = '\\' <;> simp [Expr.parse, hc, Place.after, named_outside_failed]
  · have hc : c ≠ '\\' := fun hc => hp d rest (hc ▸ rfl)
    simp [Expr.parse, hc, named_outside_failed]

end Escape

theorem reads_doubleText : Reads
    (.seq (.not (.choice (.char '"') (.char '\\'))) .any : Expr RuleName) isDouble :=
  ((Reads.char '"').choice (Reads.char '\\')).notAny

theorem parse_doubleText {p : Place} {c : Char} {rest : List Char} (hp : p.rest = c :: rest)
    (hc : isDouble c = true) :
    doubleText.parse .outside p =
      .matched [.mk .doubleText (p.rest.takeWhile isDouble) []] (p.skip isDouble) := by
  rw [doubleText, parse_rule_outside, reads_doubleText.plus_of_matched _ hp hc,
    named_outside_matched]
  simp only [Place.skip, Text.take_sub_dropWhile]

theorem parse_doubleText_failed {p : Place} (hp : ∀ c ∈ p.rest.head?, isDouble c = false) :
    doubleText.parse .outside p = .failed (max p.furthest p.offset) := by
  rw [doubleText, parse_rule_outside, reads_doubleText.plus_of_failed _ hp, named_outside_failed]

/-- Between two places the scan stays in its mode, but for what it returns from, and adds to its
word. -/
def Adds (mode : ScanMode) (p next : Place) (added : List Char) : Prop :=
  ∃ text, p.rest = text ++ next.rest ∧ ∀ current finished,
    WordScan.run ⟨mode, p.offset, current, finished⟩ text =
      ⟨mode, next.offset, added.reverse ++ current, finished⟩

namespace Adds

variable {mode : ScanMode} {p q r : Place} {a b : List Char}

theorem refl (mode : ScanMode) (p : Place) : Adds mode p p [] := ⟨[], rfl, fun _ _ => rfl⟩

theorem trans (h : Adds mode p q a) (h' : Adds mode q r b) : Adds mode p r (a ++ b) := by
  obtain ⟨text, hrest, hrun⟩ := h
  obtain ⟨text', hrest', hrun'⟩ := h'
  refine ⟨text ++ text', by rw [hrest, hrest', List.append_assoc], fun current finished => ?_⟩
  rw [WordScan.run_append, hrun, hrun', List.reverse_append, List.append_assoc]

/-- The characters of a stretch that are all added. -/
theorem skip {q : Char → Bool}
    (adds : ∀ offset current finished text, (∀ c ∈ text, q c = true) →
      WordScan.run ⟨mode, offset, current, finished⟩ text =
        ⟨mode, offset + Text.byteLength text, text.reverse ++ current, finished⟩)
    (p : Place) : Adds mode p (p.skip q) (p.rest.takeWhile q) :=
  ⟨p.rest.takeWhile q, List.takeWhile_append_dropWhile.symm, fun current finished =>
    adds p.offset current finished _ fun _ hc => List.mem_takeWhile_imp hc⟩

theorem offset_le (h : Adds mode p q a) : p.offset ≤ q.offset := by
  obtain ⟨text, -, hrun⟩ := h
  have hoffset := offset_run ⟨mode, p.offset, [], []⟩ text
  rw [hrun] at hoffset
  exact Nat.le.intro hoffset.symm

theorem length_le (h : Adds mode p q a) : q.rest.length ≤ p.rest.length := by
  obtain ⟨text, hrest, -⟩ := h
  simp [hrest]

/-- The scan of all that is left is the scan of what is left after what is added. -/
theorem run_rest (h : Adds mode p q a) (current : List Char) (finished : List (List Char)) :
    WordScan.run ⟨mode, p.offset, current, finished⟩ p.rest =
      WordScan.run ⟨mode, q.offset, a.reverse ++ current, finished⟩ q.rest := by
  obtain ⟨text, hrest, hrun⟩ := h
  rw [hrest, WordScan.run_append, hrun]

/-- A quote that opens, text, and the quote that closes. -/
theorem quoted {quote : Char} {rest after : List Char} (hp : p.rest = quote :: rest)
    (opens : ∀ current finished, WordScan.step ⟨.inWord, p.offset, current, finished⟩ quote =
      ⟨mode, p.offset + quote.utf8Size, current, finished⟩)
    (h : Adds mode (p.after quote rest) q a) (hclose : q.rest = quote :: after)
    (closes : ∀ offset current finished, WordScan.step ⟨mode, offset, current, finished⟩ quote =
      ⟨.inWord, offset + quote.utf8Size, current, finished⟩) :
    Adds .inWord p (q.after quote after) a := by
  obtain ⟨text, htext, hrun⟩ := h
  replace htext : rest = text ++ q.rest := htext
  refine ⟨quote :: (text ++ [quote]), by rw [hp, htext, hclose]; simp [Place.after], ?_⟩
  intro current finished
  calc WordScan.run ⟨.inWord, p.offset, current, finished⟩ (quote :: (text ++ [quote]))
    _ = WordScan.run ⟨mode, p.offset + quote.utf8Size, current, finished⟩ (text ++ [quote]) :=
      congrArg (WordScan.run · _) (opens current finished)
    _ = WordScan.run ⟨mode, q.offset, a.reverse ++ current, finished⟩ [quote] := by
      rw [WordScan.run_append]
      exact congrArg (WordScan.run · _) (hrun current finished)
    _ = _ := closes _ _ _

end Adds

/-- A repetition each repeat of which adds the texts of its branches adds all of them. -/
theorem exists_repeated_adds {mode : ScanMode} {text : Branch RuleName → List Char}
    {step : Place → Result RuleName} {E : Place → Prop}
    (cases : ∀ p, p.furthest ≤ p.offset →
      (∃ branches next, step p = .matched branches next ∧ next.rest.length < p.rest.length ∧
        next.furthest ≤ next.offset ∧ Adds mode p next (branches.flatMap text)) ∨
      ∃ furthest, step p = .failed furthest ∧ E { p with furthest })
    (p : Place) (h : p.furthest ≤ p.offset) : ∃ branches next,
    repeated step p = (branches, next) ∧ Adds mode p next (branches.flatMap text) ∧ E next := by
  refine exists_repeated (I := fun p => p.furthest ≤ p.offset)
    (R := fun p branches next => Adds mode p next (branches.flatMap text)) ?_ ?_ cases p h
  · intro p _
    exact Adds.refl mode p
  · intro p q r b c hb hc
    rw [List.flatMap_append]
    exact hb.trans hc

/-- Where a repetition ends that reads text between double quotes: at the end, at a backslash with
nothing after it, or at a double quote. The rules for such text have failed there last. -/
structure DoubleEnd (p : Place) : Prop where
  stops : p.rest = [] ∨ p.rest = ['\\'] ∨ ∃ rest, p.rest = '"' :: rest
  furthest : p.furthest = p.offset

theorem doubleEnd_of_not {p : Place} (hescape : ∀ c rest, p.rest ≠ '\\' :: c :: rest)
    (htext : ∀ c ∈ p.rest.head?, isDouble c = false) (h : p.furthest = p.offset) : DoubleEnd p := by
  refine ⟨?_, h⟩
  cases hp : p.rest with
  | nil => exact .inl rfl
  | cons c rest =>
    have hc : c = '"' ∨ c = '\\' := by
      have hdouble := htext c (by rw [hp]; rfl)
      simpa [isDouble, or_iff_not_imp_left] using hdouble
    rcases hc with rfl | rfl
    · exact .inr (.inr ⟨rest, rfl⟩)
    · cases rest with
      | nil => exact .inr (.inl rfl)
      | cons d rest => exact absurd hp (hescape d rest)

theorem double_cases {p : Place} (h : p.furthest ≤ p.offset) :
    (∃ branches next, (Expr.choice doubleEscape doubleText).parse .outside p =
        .matched branches next ∧ next.rest.length < p.rest.length ∧ next.furthest ≤ next.offset ∧
        Adds .doubleQuoted p next (branches.flatMap doubleBranchText)) ∨
    ∃ furthest, (Expr.choice doubleEscape doubleText).parse .outside p = .failed furthest ∧
      DoubleEnd { p with furthest } := by
  by_cases hescape : ∃ c rest, p.rest = '\\' :: c :: rest
  · obtain ⟨c, rest, hp⟩ := hescape
    refine .inl ⟨_, _, parse_choice_left (parse_escape _ hp), ?_, ?_, ?_⟩
    · simp only [Place.after, hp, List.length_cons]
      omega
    · simp only [Place.after]
      omega
    · exact ⟨['\\', c], hp, fun _ _ => rfl⟩
  · replace hescape : ∀ c rest, p.rest ≠ '\\' :: c :: rest := fun c rest hp => hescape ⟨c, rest, hp⟩
    -- A text is looked for at the same place, where a rule has failed.
    let q : Place := { p with furthest := p.offset }
    have hfailed : doubleEscape.parse .outside p = .failed p.offset :=
      (parse_escape_failed _ hescape).trans (congrArg _ (Nat.max_eq_right h))
    rcases p.head_cases isDouble with ⟨c, rest, hp, hc⟩ | hends
    · have htext : doubleText.parse .outside q = _ := parse_doubleText hp hc
      refine .inl ⟨_, q.skip isDouble, (parse_choice_right hfailed).trans htext,
        Place.length_skip_lt (p := q) hp hc, Nat.le_add_right _ _, ?_⟩
      show Adds .doubleQuoted p (q.skip isDouble) (q.rest.takeWhile isDouble ++ [])
      rw [List.append_nil]
      exact Adds.skip (fun offset _ _ _ h => run_double offset h) q
    · have htext : doubleText.parse .outside q = .failed p.offset :=
        (parse_doubleText_failed (p := q) hends).trans (congrArg _ (Nat.max_self _))
      exact .inr ⟨p.offset, (parse_choice_right hfailed).trans htext,
        doubleEnd_of_not (p := q) hescape hends rfl⟩

theorem exists_doubleBody (p : Place) (h : p.furthest ≤ p.offset) : ∃ branches next,
    repeated ((Expr.choice doubleEscape doubleText).parse .outside) p = (branches, next) ∧
      Adds .doubleQuoted p next (branches.flatMap doubleBranchText) ∧ DoubleEnd next :=
  exists_repeated_adds (fun _ h => double_cases h) p h

/-! ## Pieces -/

section Quoted

variable (name : RuleName) {quote : Char} {body : Expr RuleName} {p next : Place}
  {rest : List Char} {branches : List (Branch RuleName)}

/-- Text between two quotes, as a rule. -/
theorem parse_quoted (hp : p.rest = quote :: rest)
    (hbody : body.parse .outside (p.after quote rest) = .matched branches next) {after : List Char}
    (hclose : next.rest = quote :: after) :
    ∃ text, (Expr.rule name .compound (.seq (.char quote) (.seq body (.char quote)))).parse
      .outside p = .matched [.mk name text branches] (next.after quote after) := by
  have hparse := parse_seq (parse_char hp) (parse_seq hbody (parse_char hclose))
  rw [List.nil_append, List.append_nil] at hparse
  refine ⟨p.rest.take (p.rest.length - after.length), ?_⟩
  rw [parse_rule_outside]
  exact congrArg (Result.named name .outside p) hparse

/-- Without a closing quote the rule fails where it starts, and where the text has failed. -/
theorem parse_quoted_open (hp : p.rest = quote :: rest)
    (hbody : body.parse .outside (p.after quote rest) = .matched branches next)
    (hopen : next.rest.head? ≠ some quote) :
    (Expr.rule name .compound (.seq (.char quote) (.seq body (.char quote)))).parse .outside p =
      .failed (max next.furthest p.offset) := by
  rw [parse_rule_outside]
  exact congrArg (Result.named name .outside p) (parse_seq_failed_right (parse_char hp)
    (parse_seq_failed_right hbody (parse_char_failed hopen)))

theorem parse_quoted_failed (hp : p.rest.head? ≠ some quote) :
    (Expr.rule name .compound (.seq (.char quote) (.seq body (.char quote)))).parse .outside p =
      .failed (max p.furthest p.offset) := by
  rw [parse_rule_outside]
  exact congrArg (Result.named name .outside p) (parse_seq_failed_left (parse_char_failed hp))

end Quoted

theorem reads_bare : Reads (.seq (.not (.choice blank (.choice (.char '\'') (.choice (.char '"')
    (.char '\\'))))) .any : Expr RuleName) isBare :=
  (reads_blank.choice ((Reads.char '\'').choice ((Reads.char '"').choice (Reads.char '\\')))).notAny

theorem parse_bare {p : Place} {c : Char} {rest : List Char} (hp : p.rest = c :: rest)
    (hc : isBare c = true) :
    bare.parse .outside p =
      .matched [.mk .bare (p.rest.takeWhile isBare) []] (p.skip isBare) := by
  rw [bare, parse_rule_outside, reads_bare.plus_of_matched _ hp hc, named_outside_matched]
  simp only [Place.skip, Text.take_sub_dropWhile]

theorem parse_bare_failed {p : Place} (hp : ∀ c ∈ p.rest.head?, isBare c = false) :
    bare.parse .outside p = .failed (max p.furthest p.offset) := by
  rw [bare, parse_rule_outside, reads_bare.plus_of_failed _ hp, named_outside_failed]

end TwinTrees.Script.LineGrammar
