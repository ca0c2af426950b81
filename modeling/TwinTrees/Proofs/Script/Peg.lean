import TwinTrees.Text.Blank

/-!
# Parsing expressions

Parsing expressions with ordered choice: the second alternative is tried only where the first one
fails, a repetition takes as much as it can and never gives anything back, and a negative look-ahead
reads nothing. What a named rule matches becomes a branch of a tree; rules inside an atomic rule
make no branches. When nothing matches, what is reported is the furthest place at which a rule has
failed, looked for in every alternative that was tried, also in those that were given up. Inside a
negative look-ahead the rules that match count instead of those that fail, and inside an atomic rule
none do.

An expression that reads one character or fails (`Reads`) is described by the characters it accepts;
repeated, it skips the longest stretch of them.
-/

namespace TwinTrees.Script.Peg

/-- What a rule does to the rules inside it. -/
inductive RuleKind
  | normal
  /-- The rules inside make branches, whatever the rule is in. -/
  | compound
  /-- The rules inside make no branches. -/
  | atomic
  deriving DecidableEq, Repr

/-- A parsing expression whose rules have names in `ν`. -/
inductive Expr (ν : Type)
  | char (c : Char)
  | any
  | startOfInput
  | endOfInput
  | seq (a b : Expr ν)
  | choice (a b : Expr ν)
  | star (a : Expr ν)
  | optional (a : Expr ν)
  | not (a : Expr ν)
  | rule (name : ν) (kind : RuleKind) (body : Expr ν)

/-- A branch of the tree of a parse: the rule, the text it has matched, and the branches of the
rules inside it. -/
inductive Branch (ν : Type)
  | mk (name : ν) (text : List Char) (inner : List (Branch ν))

def Branch.name {ν : Type} : Branch ν → ν
  | mk name _ _ => name

def Branch.text {ν : Type} : Branch ν → List Char
  | mk _ text _ => text

def Branch.inner {ν : Type} : Branch ν → List (Branch ν)
  | mk _ _ inner => inner

/-- Whether what is parsed is looked at without being read, and what of it counts for the report. -/
inductive Lookahead
  | none
  | positive
  | negative
  deriving DecidableEq, Repr

/-- The look-ahead inside a negative look-ahead. -/
def Lookahead.negated : Lookahead → Lookahead
  | .none | .positive => .negative
  | .negative => .positive

/-- Where an expression stands. -/
structure Mode where
  atomic : Bool
  lookahead : Lookahead
  deriving DecidableEq, Repr

/-- Outside of all rules. -/
def Mode.outside : Mode := ⟨false, .none⟩

/-- The mode inside a rule. -/
def Mode.enter (m : Mode) : RuleKind → Mode
  | .normal => m
  | .compound => { m with atomic := false }
  | .atomic => { m with atomic := true }

/-- The mode in which a rule itself counts. -/
def Mode.around (m : Mode) : RuleKind → Mode
  | .normal | .atomic => m
  | .compound => { m with atomic := false }

/-- A place in the text that is parsed. -/
structure Place where
  /-- What is not read yet. -/
  rest : List Char
  /-- The number of bytes read. -/
  offset : Nat
  /-- The furthest place at which a rule has failed so far. -/
  furthest : Nat
  deriving DecidableEq, Repr

/-- The place after the character `c`. -/
def Place.after (p : Place) (c : Char) (rest : List Char) : Place :=
  { p with rest, offset := p.offset + c.utf8Size }

/-- The place after the longest stretch of characters that satisfy `q`. -/
def Place.skip (p : Place) (q : Char → Bool) : Place :=
  { p with
    rest := p.rest.dropWhile q
    offset := p.offset + Text.byteLength (p.rest.takeWhile q) }

/-- How a parse ends: with branches and a place, or without a match. -/
inductive Result (ν : Type)
  | matched (branches : List (Branch ν)) (next : Place)
  | failed (furthest : Nat)

section Parse

variable {ν : Type}

/-- The result of a rule at `p` whose body has the given result. -/
def Result.named (name : ν) (m : Mode) (p : Place) : Result ν → Result ν
  | .matched branches next =>
    let text := p.rest.take (p.rest.length - next.rest.length)
    .matched (if m.lookahead = .none ∧ m.atomic = false then [.mk name text branches] else branches)
      (if m.lookahead = .negative ∧ m.atomic = false then
        { next with furthest := max next.furthest p.offset }
      else next)
  | .failed furthest =>
    .failed (if m.lookahead ≠ .negative ∧ m.atomic = false then max furthest p.offset
      else furthest)

/-- Repeats a parse as long as it matches and reads something. -/
def repeated (step : Place → Result ν) (p : Place) : List (Branch ν) × Place :=
  match step p with
  | .failed furthest => ([], { p with furthest })
  | .matched branches next =>
    if next.rest.length < p.rest.length then
      (branches ++ (repeated step next).1, (repeated step next).2)
    else (branches, next)
  termination_by p.rest.length

/-- The result of an expression at a place. -/
def Expr.parse : Expr ν → Mode → Place → Result ν
  | .char c, _, p =>
    match p.rest with
    | d :: rest => if d = c then .matched [] (p.after d rest) else .failed p.furthest
    | [] => .failed p.furthest
  | .any, _, p =>
    match p.rest with
    | d :: rest => .matched [] (p.after d rest)
    | [] => .failed p.furthest
  | .startOfInput, _, p => if p.offset = 0 then .matched [] p else .failed p.furthest
  | .endOfInput, _, p => if p.rest = [] then .matched [] p else .failed p.furthest
  | .seq a b, m, p =>
    match a.parse m p with
    | .failed furthest => .failed furthest
    | .matched branches next =>
      match b.parse m next with
      | .failed furthest => .failed furthest
      | .matched more last => .matched (branches ++ more) last
  | .choice a b, m, p =>
    match a.parse m p with
    | .failed furthest => b.parse m { p with furthest }
    | .matched branches next => .matched branches next
  | .star a, m, p => .matched (repeated (a.parse m) p).1 (repeated (a.parse m) p).2
  | .optional a, m, p =>
    match a.parse m p with
    | .failed furthest => .matched [] { p with furthest }
    | .matched branches next => .matched branches next
  | .not a, m, p =>
    match a.parse { m with lookahead := m.lookahead.negated } p with
    | .failed furthest => .matched [] { p with furthest }
    | .matched _ next => .failed next.furthest
  | .rule name kind body, m, p => (body.parse (m.enter kind) p).named name (m.around kind) p

attribute [local simp] Expr.parse

/-- One or more. -/
def Expr.plus (a : Expr ν) : Expr ν := a.seq a.star

theorem Place.length_skip_lt {p : Place} {q : Char → Bool} {c : Char} {rest : List Char}
    (hp : p.rest = c :: rest) (hc : q c = true) : (p.skip q).rest.length < p.rest.length := by
  have hle := (List.dropWhile_suffix q (l := rest)).length_le
  simp only [Place.skip, hp, List.dropWhile_cons_of_pos hc, List.length_cons]
  omega

/-- The text goes on with a character that satisfies `q`, or it does not. -/
theorem Place.head_cases (p : Place) (q : Char → Bool) :
    (∃ c rest, p.rest = c :: rest ∧ q c = true) ∨ ∀ c ∈ p.rest.head?, q c = false := by
  cases hp : p.rest with
  | nil => exact .inr fun c hc => nomatch hc
  | cons c rest =>
    cases hc : q c with
    | true => exact .inl ⟨c, rest, rfl, hc⟩
    | false => exact .inr fun d hd => Option.some.inj hd ▸ hc

theorem Place.rest_eq_append (p : Place) (q : Char → Bool) :
    p.rest = p.rest.takeWhile q ++ (p.skip q).rest :=
  List.takeWhile_append_dropWhile.symm

/-- Where the first character is not to be skipped, nothing is. -/
theorem Place.skip_eq_self {p : Place} {q : Char → Bool} (h : ∀ c ∈ p.rest.head?, q c = false) :
    p.skip q = p := by
  obtain ⟨rest, offset, furthest⟩ := p
  cases rest with
  | nil => rfl
  | cons c rest =>
    have hc : q c = false := h c rfl
    simp [Place.skip, hc, Text.byteLength_nil]

theorem Place.head?_skip {p : Place} {q : Char → Bool} :
    ∀ c ∈ (p.skip q).rest.head?, q c = false := by
  intro c hc
  have h := List.head?_dropWhile_not q p.rest
  rw [Place.skip] at hc
  rw [hc] at h
  simpa using h

/-! ## Results -/

theorem named_outside_matched (name : ν) (p : Place) (branches : List (Branch ν)) (next : Place) :
    Result.named name .outside p (.matched branches next) =
      .matched [.mk name (p.rest.take (p.rest.length - next.rest.length)) branches] next := rfl

theorem named_outside_failed (name : ν) (p : Place) (furthest : Nat) :
    Result.named name .outside p (.failed furthest) = .failed (max furthest p.offset) := rfl

theorem parse_rule_outside (name : ν) (kind : RuleKind) (body : Expr ν) (p : Place) :
    (Expr.rule name kind body).parse .outside p =
      (body.parse (Mode.outside.enter kind) p).named name .outside p := by
  cases kind <;> rfl

section Composed

variable {a b : Expr ν} {m : Mode} {p q r : Place} {branches more : List (Branch ν)}
  {furthest : Nat}

theorem parse_seq (ha : a.parse m p = .matched branches q) (hb : b.parse m q = .matched more r) :
    (a.seq b).parse m p = .matched (branches ++ more) r := by
  simp [ha, hb]

theorem parse_seq_failed_left (ha : a.parse m p = .failed furthest) :
    (a.seq b).parse m p = .failed furthest := by
  simp [ha]

theorem parse_seq_failed_right (ha : a.parse m p = .matched branches q)
    (hb : b.parse m q = .failed furthest) : (a.seq b).parse m p = .failed furthest := by
  simp [ha, hb]

theorem parse_choice_left (ha : a.parse m p = .matched branches q) :
    (a.choice b).parse m p = .matched branches q := by
  simp [ha]

/-- The second alternative starts where the first one did, and what has failed stays noted. -/
theorem parse_choice_right (ha : a.parse m p = .failed furthest) :
    (a.choice b).parse m p = b.parse m { p with furthest } := by
  simp [ha]

theorem parse_not (ha : a.parse { m with lookahead := m.lookahead.negated } p = .failed furthest) :
    a.not.parse m p = .matched [] { p with furthest } := by
  simp [ha]

theorem parse_not_failed
    (ha : a.parse { m with lookahead := m.lookahead.negated } p = .matched branches q) :
    a.not.parse m p = .failed q.furthest := by
  simp [ha]

theorem parse_star (ha : repeated (a.parse m) p = (branches, q)) :
    a.star.parse m p = .matched branches q := by
  simp [ha]

theorem parse_optional (ha : a.parse m p = .matched branches q) :
    a.optional.parse m p = .matched branches q := by
  simp [ha]

theorem parse_optional_failed (ha : a.parse m p = .failed furthest) :
    a.optional.parse m p = .matched [] { p with furthest } := by
  simp [ha]

end Composed

theorem repeated_of_failed {step : Place → Result ν} {p : Place} {furthest : Nat}
    (h : step p = .failed furthest) : repeated step p = ([], { p with furthest }) := by
  rw [repeated, h]

theorem repeated_of_matched {step : Place → Result ν} {p next : Place} {branches : List (Branch ν)}
    (h : step p = .matched branches next) (reads : next.rest.length < p.rest.length) :
    repeated step p = (branches ++ (repeated step next).1, (repeated step next).2) := by
  rw [repeated, h]
  exact if_pos reads

/-- A repetition, by an invariant `I` of the places at which it goes on: each repeat reads something
and says `R` of what it matches, and where there is none, `E` holds. -/
theorem exists_repeated {step : Place → Result ν} {I E : Place → Prop}
    {R : Place → List (Branch ν) → Place → Prop}
    (refl : ∀ p furthest, R p [] { p with furthest })
    (trans : ∀ p q r b c, R p b q → R q c r → R p (b ++ c) r)
    (cases : ∀ p, I p →
      (∃ branches next, step p = .matched branches next ∧ next.rest.length < p.rest.length ∧
        I next ∧ R p branches next) ∨
      ∃ furthest, step p = .failed furthest ∧ E { p with furthest })
    (p : Place) (h : I p) :
    ∃ branches next, repeated step p = (branches, next) ∧ R p branches next ∧ E next := by
  induction hn : p.rest.length using Nat.strongRecOn generalizing p with
  | ind n ih =>
  rcases cases p h with ⟨branches, next, hstep, hless, hnext, hreads⟩ | ⟨furthest, hstep, hends⟩
  · obtain ⟨more, last, hrepeated, hmore, hends⟩ := ih _ (hn ▸ hless) next hnext rfl
    refine ⟨branches ++ more, last, ?_, trans _ _ _ _ _ hreads hmore, hends⟩
    rw [repeated_of_matched hstep hless, hrepeated]
  · exact ⟨[], { p with furthest }, repeated_of_failed hstep, refl p furthest, hends⟩

/-! ## Expressions that read one character -/

/-- The expression reads one character that satisfies `q`, and makes no branch. -/
def Reads (e : Expr ν) (q : Char → Bool) : Prop :=
  ∀ m p, e.parse m p =
    match p.rest with
    | c :: rest => if q c then .matched [] (p.after c rest) else .failed p.furthest
    | [] => .failed p.furthest

namespace Reads

variable {a b : Expr ν} {q r : Char → Bool}

theorem char (c : Char) : Reads (.char c : Expr ν) (· == c) := by
  intro m p
  rw [Expr.parse]
  split <;> simp

theorem choice (ha : Reads a q) (hb : Reads b r) : Reads (a.choice b) (fun c => q c || r c) := by
  intro m p
  rw [Expr.parse, ha m p]
  cases hp : p.rest with
  | nil => simp [hb m]
  | cons c rest =>
    cases hq : q c with
    | true => simp [hq]
    | false => simp [hq, hb m, Place.after]

theorem any : Reads (.any : Expr ν) (fun _ => true) := by
  intro m p
  rw [Expr.parse]
  split <;> simp

/-- Any character but those that the expression reads. -/
theorem notAny (ha : Reads a q) : Reads (a.not.seq .any) (fun c => !q c) := by
  intro m p
  rw [Expr.parse, Expr.parse, ha _ p]
  cases hp : p.rest with
  | nil => simp [Expr.parse]
  | cons c rest => cases hq : q c <;> simp [Expr.parse, hq, Place.after]

theorem of_matched (ha : Reads a q) {m : Mode} {p : Place} {c : Char} {rest : List Char}
    (hp : p.rest = c :: rest) (hc : q c = true) : a.parse m p = .matched [] (p.after c rest) := by
  rw [ha, hp]
  exact if_pos hc

theorem of_failed (ha : Reads a q) {m : Mode} {p : Place} (hp : ∀ c ∈ p.rest.head?, q c = false) :
    a.parse m p = .failed p.furthest := by
  rw [ha]
  cases hrest : p.rest with
  | nil => rfl
  | cons c rest =>
    rw [hrest] at hp
    simp [hp c rfl]

/-- Repeated, the expression skips what it reads. -/
theorem star (ha : Reads a q) (m : Mode) (p : Place) :
    a.star.parse m p = .matched [] (p.skip q) := by
  have hskip : repeated (a.parse m) p = ([], p.skip q) := by
    obtain ⟨text, offset, furthest⟩ := p
    induction text generalizing offset with
    | nil =>
      rw [repeated_of_failed (ha.of_failed (by simp))]
      rfl
    | cons c rest ih =>
      cases hc : q c with
      | true =>
        rw [repeated_of_matched (ha.of_matched rfl hc) (Nat.lt_succ_self _)]
        simp only [Place.after, ih, Place.skip, List.dropWhile_cons, List.takeWhile_cons, hc]
        simp [Text.byteLength_cons, Nat.add_assoc]
      | false =>
        rw [repeated_of_failed (ha.of_failed (by simpa using hc))]
        simp [Place.skip, hc, Text.byteLength_nil]
  rw [Expr.parse, hskip]

theorem plus_of_matched (ha : Reads a q) (m : Mode) {p : Place} {c : Char} {rest : List Char}
    (hp : p.rest = c :: rest) (hc : q c = true) :
    a.plus.parse m p = .matched [] (p.skip q) := by
  rw [Expr.plus, Expr.parse, ha.of_matched hp hc]
  simp only [ha.star m, List.append_nil]
  simp [Place.skip, Place.after, hp, hc, Text.byteLength_cons, Nat.add_assoc]

theorem plus_of_failed (ha : Reads a q) (m : Mode) {p : Place}
    (hp : ∀ c ∈ p.rest.head?, q c = false) : a.plus.parse m p = .failed p.furthest := by
  rw [Expr.plus, Expr.parse, ha.of_failed hp]

end Reads

theorem parse_char {m : Mode} {p : Place} {c : Char} {rest : List Char} (hp : p.rest = c :: rest) :
    (Expr.char c : Expr ν).parse m p = .matched [] (p.after c rest) :=
  (Reads.char c).of_matched hp (beq_self_eq_true c)

theorem parse_char_failed {m : Mode} {p : Place} {c : Char} (hp : p.rest.head? ≠ some c) :
    (Expr.char c : Expr ν).parse m p = .failed p.furthest := by
  refine (Reads.char c).of_failed fun d hd => beq_eq_false_iff_ne.2 ?_
  rintro rfl
  exact hp hd

end Parse

end TwinTrees.Script.Peg
